import RedisClone.Lib.Decimal

namespace RedisClone

open Lib.Decimal

abbrev Bytes := List UInt8

abbrev Key := Bytes

def ascii (s : String) : Bytes := s.toList.map byteOf

def upperByte (b : UInt8) : UInt8 := if 97 ≤ b ∧ b ≤ 122 then b - 32 else b
def lowerByte (b : UInt8) : UInt8 := if 65 ≤ b ∧ b ≤ 90 then b + 32 else b

/-- An `int64` takes the last 64 bits. -/
def wrap64 (z : ℤ) : ℤ := (z + 9223372036854775808) % 18446744073709551616 - 9223372036854775808

lemma inInt64_wrap64 (z : ℤ) : inInt64 (wrap64 z) = true := by
  rw [inInt64_iff, minInt64, maxInt64]
  simp only [wrap64]
  omega

lemma wrap64_of_inInt64 {n : ℤ} (hn : inInt64 n = true) : wrap64 n = n := by
  rw [inInt64_iff, minInt64, maxInt64] at hn
  simp only [wrap64]
  omega

def cr : UInt8 := byteOf '\r'
def lf : UInt8 := byteOf '\n'

/-- A `time.Time` in nanoseconds since the Unix epoch. The zero Time (year 1), which
`IsZero` recognises and which comes before everything a clock reads, is `none`. -/
abbrev Time := Option ℤ

def Time.isZero (t : Time) : Bool := t.isNone

def Time.after (t : Time) (now : ℤ) : Bool :=
  match t with
  | none => false
  | some d => decide (now < d)

def nanosPerMilli : ℤ := 1000000
def nanosPerSecond : ℤ := 1000000000

def unixMilli (t : ℤ) : ℤ := t / nanosPerMilli

def floorMilli (t : ℤ) : ℤ := unixMilli t * nanosPerMilli

lemma floorMilli_le (t : ℤ) : floorMilli t ≤ t := by
  simp only [floorMilli, unixMilli, nanosPerMilli]
  omega

lemma floorMilli_idem (t : ℤ) : floorMilli (floorMilli t) = floorMilli t := by
  simp only [floorMilli, unixMilli, nanosPerMilli]
  omega

def OneLine (s : Bytes) : Prop := ∀ b ∈ s, b ≠ cr ∧ b ≠ lf

instance (s : Bytes) : Decidable (OneLine s) := List.decidableBAll _ s

lemma OneLine.append {s t : Bytes} (hs : OneLine s) (ht : OneLine t) : OneLine (s ++ t) :=
  fun b hb =>
  (List.mem_append.1 hb).elim (hs b) (ht b)

end RedisClone
