import RedisClone.Basic

namespace RedisClone.Resp

open Lib.Decimal

def crlf : Bytes := [cr, lf]

def countLine (typ : UInt8) (n : ℤ) : Bytes := typ :: (formatInt n ++ crlf)

inductive WriteCall
  | simpleString (s : Bytes)
  | error (msg : Bytes)
  | integer (n : ℤ)
  | bulkString (p : Bytes)
  | nullBulkString
  | arrayHeader (n : ℕ)
  deriving DecidableEq, Repr

/-- Simple strings and errors have no length prefix, so a CR or LF in them is a
bug of the caller: the writer panics. -/
def WriteCall.panics : WriteCall → Bool
  | .simpleString s | .error s => s.any (fun b => b == cr || b == lf)
  | _ => false

def WriteCall.chunks : WriteCall → List Bytes
  | .simpleString s => [ascii "+", s, crlf]
  | .error msg => [ascii "-", msg, crlf]
  | .integer n => [countLine (byteOf ':') (wrap64 n)]
  | .bulkString p => [countLine (byteOf '$') p.length, p, crlf]
  | .nullBulkString => [ascii "$-1\r\n"]
  | .arrayHeader n => [countLine (byteOf '*') n]

def WriteCall.bytes (c : WriteCall) : Bytes := c.chunks.flatten

def bulkString (p : Bytes) : Bytes := WriteCall.bytes (.bulkString p)

def arrayHeader (n : ℕ) : Bytes := WriteCall.bytes (.arrayHeader n)

def commandCalls (args : List Bytes) : List WriteCall :=
  .arrayHeader args.length :: args.map .bulkString

def writeCommand (args : List Bytes) : Bytes := (commandCalls args).flatMap WriteCall.bytes

lemma writeCommand_eq (args : List Bytes) :
    writeCommand args = arrayHeader args.length ++ args.flatMap bulkString := by
  simp only [writeCommand, commandCalls, List.flatMap_cons, List.flatMap_map, arrayHeader]
  rfl

lemma bulkString_eq (p : Bytes) :
    bulkString p = countLine (byteOf '$') p.length ++ (p ++ crlf) := by
  simp [bulkString, WriteCall.bytes, WriteCall.chunks]

lemma arrayHeader_eq (n : ℕ) : arrayHeader n = countLine (byteOf '*') n := by
  simp [arrayHeader, WriteCall.bytes, WriteCall.chunks]

inductive IsValue : Bytes → Prop
  | simpleString {s : Bytes} (h : OneLine s) : IsValue (ascii "+" ++ (s ++ crlf))
  | error {msg : Bytes} (h : OneLine msg) : IsValue (ascii "-" ++ (msg ++ crlf))
  | integer {n : ℤ} (h : inInt64 n = true) : IsValue (countLine (byteOf ':') n)
  | bulkString (p : Bytes) : IsValue (countLine (byteOf '$') p.length ++ (p ++ crlf))
  | nullBulkString : IsValue (ascii "$-1\r\n")
  | nullArray : IsValue (ascii "*-1\r\n")
  | array {vs : List Bytes} (h : ∀ v ∈ vs, IsValue v) :
      IsValue (countLine (byteOf '*') vs.length ++ vs.flatten)

def WriteCall.Whole : WriteCall → Prop
  | .simpleString s | .error s => OneLine s
  | .arrayHeader _ => False
  | _ => True

lemma WriteCall.panics_eq_false {s : Bytes} :
    (s.any fun b => b == cr || b == lf) = false ↔ OneLine s := by
  simp [OneLine]

lemma WriteCall.Whole.panics {c : WriteCall} (h : c.Whole) : c.panics = false := by
  cases c with
  | simpleString s | error s => exact panics_eq_false.2 h
  | _ => rfl

lemma WriteCall.Whole.isValue {c : WriteCall} (h : c.Whole) : IsValue c.bytes := by
  cases c with
  | simpleString s => simpa [bytes, chunks] using IsValue.simpleString h
  | error msg => simpa [bytes, chunks] using IsValue.error h
  | integer n => simpa [bytes, chunks] using IsValue.integer (inInt64_wrap64 n)
  | bulkString p => simpa [bytes, chunks] using IsValue.bulkString p
  | nullBulkString => simpa [bytes, chunks] using IsValue.nullBulkString
  | arrayHeader n => exact absurd h id

lemma isValue_array {cs : List WriteCall} (h : ∀ c ∈ cs, c.Whole) :
    IsValue (((WriteCall.arrayHeader cs.length) :: cs).flatMap WriteCall.bytes) := by
  have hvs : ∀ v ∈ cs.map WriteCall.bytes, IsValue v := by
    intro v hv
    obtain ⟨c, hc, rfl⟩ := List.mem_map.1 hv
    exact (h c hc).isValue
  have hv := IsValue.array hvs
  rw [List.length_map] at hv
  rw [List.flatMap_cons, List.flatMap, ← arrayHeader, arrayHeader_eq]
  exact hv

end RedisClone.Resp
