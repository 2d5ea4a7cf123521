import RedisClone.Aof.Recovery
import RedisClone.Resp.Grammar

/-! Replay of any file at all: what it reads, where it stops, and what a second replay makes of what
the first has kept. -/

namespace RedisClone.Aof

open Resp Lib.Decimal

section Stop

variable {src : Bytes}

lemma eq_nil_of_readLine_eof (h : readLine src = .error .eof) : src = [] := by
  unfold readLine at h
  split at h
  · cases h
  · rename_i hs
    split_ifs at h with hline
    · subst hline
      simp only [readSlice] at hs
      split_ifs at hs
      · exact absurd (congrArg (·.2.1) hs) (Option.some_ne_none _).symm
      · exact absurd (Option.some.inj (congrArg (·.2.1) hs)) SliceError.noConfusion
      · exact congrArg Prod.fst hs
    · cases h
  · dsimp only at h
    split_ifs at h <;> cases h

lemma unexpectedEOF_ne_eof (e : ReadError) : unexpectedEOF e ≠ .eof := by
  cases e <;> exact ReadError.noConfusion

lemma readBulkString_ne_eof : readBulkString src ≠ .error .eof := by
  intro h
  unfold readBulkString at h
  split at h
  · exact unexpectedEOF_ne_eof _ (Except.error.inj h)
  · split_ifs at h
    · cases h
    · split at h
      · cases h
      · dsimp only at h
        split_ifs at h <;> cases h

lemma readArgs_ne_eof (n : ℕ) : ∀ src : Bytes, readArgs n src ≠ .error .eof := by
  induction n with
  | zero => exact fun src h => by cases h
  | succ n ih =>
    intro src h
    simp only [readArgs] at h
    split at h
    · rename_i hb
      exact readBulkString_ne_eof (hb.trans (congrArg _ (Except.error.inj h)))
    · split at h
      · rename_i ha
        exact ih _ (ha.trans (congrArg _ (Except.error.inj h)))
      · cases h

lemma eq_nil_of_readCommand_eof (h : readCommand src = .error .eof) : src = [] := by
  unfold readCommand at h
  split at h
  · rename_i hl
    exact eq_nil_of_readLine_eof (hl.trans (congrArg _ (Except.error.inj h)))
  · split_ifs at h
    · cases h
    · split at h
      · cases h
      · split_ifs at h
        · cases h
        · cases h
        · exact absurd h (readArgs_ne_eof _ _)

end Stop

/-- Successive calls of `ReadCommand` up to the first that fails: the commands read, each with what
was unread before it, then what is left and why it could not be read. -/
inductive Scans : Bytes → List (Bytes × List Bytes) → Bytes → ReadError → Prop
  | stop {src : Bytes} {e : ReadError} (h : readCommand src = .error e) : Scans src [] src e
  | next {src rest tail : Bytes} {args : List Bytes} {reads : List (Bytes × List Bytes)}
      {e : ReadError} (h : readCommand src = .ok (args, rest)) (hrest : Scans rest reads tail e) :
        Scans src ((src, args) :: reads) tail e

lemma exists_scans (n : ℕ) :
    ∀ src : Bytes, src.length < n → ∃ reads tail e, Scans src reads tail e := by
  induction n with
  | zero => exact fun src h => absurd h (Nat.not_lt_zero _)
  | succ n ih =>
    intro src hn
    cases h : readCommand src with
    | error e => exact ⟨[], src, e, .stop h⟩
    | ok read =>
      obtain ⟨reads, tail, e, hrest⟩ := ih read.2 (by have := readCommand_shorter h; omega)
      exact ⟨_, tail, e, .next h hrest⟩

def applied (reads : List (Bytes × List Bytes)) : List (List Bytes) :=
  (reads.map Prod.snd).filter (· ≠ [])

/-- Read as `Append` would have written it. -/
def AsWritten (read : Bytes × List Bytes) : Prop :=
  read.2 ≠ [] ∧ ∀ numeral ∈ headerNumerals read.1, Canonical numeral

section Scan

variable {src tail : Bytes} {reads : List (Bytes × List Bytes)} {e : ReadError}

lemma Scans.length_le (h : Scans src reads tail e) : reads.length ≤ src.length := by
  induction h with
  | stop _ => exact Nat.zero_le _
  | next h _ ih =>
    have := readCommand_shorter h
    rw [List.length_cons]
    omega

lemma Scans.stops (h : Scans src reads tail e) : readCommand tail = .error e := by
  induction h with
  | stop h => exact h
  | next _ _ ih => exact ih

lemma applied_cons (src : Bytes) (args : List Bytes) (reads : List (Bytes × List Bytes)) :
    applied ((src, args) :: reads) = if args = [] then applied reads
    else args :: applied reads := by
  simp only [applied, List.map_cons, List.filter_cons, decide_not, Bool.not_eq_true',
    decide_eq_false_iff_not]
  split_ifs <;> rfl

lemma Scans.withinLimits (h : Scans src reads tail e) : ∀ c ∈ applied reads, WithinLimits c := by
  induction h with
  | stop _ => exact fun _ hc => absurd hc List.not_mem_nil
  | @next src rest tail args reads e h _ ih =>
    intro c hc
    rw [applied_cons] at hc
    split_ifs at hc with hargs
    · exact ih c hc
    · rcases List.mem_cons.1 hc with rfl | hc
      · obtain ⟨count, lengths, hs, -⟩ := readCommand_eq_ok.1 h
        exact ⟨hargs, hs.limit, fun p hp => by
          obtain ⟨i, hi, rfl⟩ := List.getElem_of_mem hp
          exact (hs.lengths.get (by rw [hs.lengths.length_eq]; exact hi) hi).limit⟩
      · exact ih c hc

lemma Scans.consumed (h : Scans src reads tail e) :
    ∃ consumed, src = consumed ++ tail ∧ (encodeAll (applied reads)).length ≤ consumed.length ∧
      ((∀ read ∈ reads, AsWritten read) → consumed = encodeAll (applied reads)) ∧
      (consumed.length ≤ (encodeAll (applied reads)).length → ∀ read ∈ reads, AsWritten read) := by
  induction h with
  | stop _ => exact ⟨[], rfl, le_rfl, fun _ => rfl, fun _ _ hr => absurd hr List.not_mem_nil⟩
  | @next src rest tail args reads e h _ ih =>
    obtain ⟨consumed, rfl, hle, hexact, htight⟩ := ih
    obtain ⟨count, lengths, hs, rfl⟩ := readCommand_eq_ok.1 h
    have hshort := writeCommand_length_le hs
    have hpos := writeCommand_length_pos args
    refine ⟨commandAs count lengths args ++ consumed, by rw [List.append_assoc], ?_, fun hall => ?_,
      fun hlen => ?_⟩
    · rw [applied_cons, List.length_append]
      split_ifs
      · omega
      · rw [encodeAll_cons, List.length_append]
        omega
    · have hfirst := hall _ List.mem_cons_self
      have hcanonical := hfirst.2
      rw [headerNumerals_commandAs hs] at hcanonical
      rw [applied_cons, if_neg hfirst.1, encodeAll_cons, commandAs_canonical hs hcanonical,
        hexact fun read hr => hall read (List.mem_cons_of_mem _ hr)]
    · rw [applied_cons, List.length_append] at hlen
      split_ifs at hlen with hargs
      · omega
      · rw [encodeAll_cons, List.length_append] at hlen
        intro read hr
        rcases List.mem_cons.1 hr with rfl | hr
        · refine ⟨hargs, ?_⟩
          rw [headerNumerals_commandAs hs]
          exact commandAs_tight hs (by omega)
        · exact htight (by omega) read hr

end Scan

section Replay

variable {σ ε : Type} (f : σ → List Bytes → σ) {src tail file : Bytes}
  {reads : List (Bytes × List Bytes)} {e : ReadError}

def ending (file : Bytes) (res : Result) (st : σ) : ReadError → Replayed σ ε
  | .eof => ⟨res, none, st, some file⟩
  | .unexpectedEOF =>
    ⟨{ res with truncated := file.length - res.bytes }, none, st,
      some (truncateFile file res.bytes)⟩
  | .protocol msg => ⟨res, some (.parse res.commands res.bytes (.protocol msg)), st, some file⟩

lemma replayLoop_scans (h : Scans src reads tail e) :
    ∀ (fuel : ℕ) (res : Result) (st : σ), reads.length < fuel →
    replayLoop (infallible f ε) file fuel src res st =
      some (ending file { res with
        commands := res.commands + (applied reads).length
        bytes := res.bytes + (encodeAll (applied reads)).length }
          ((applied reads).foldl f st) e) := by
  induction h with
  | @stop src e h =>
    intro fuel res st hf
    obtain ⟨fuel, rfl⟩ := Nat.exists_eq_succ_of_ne_zero (by omega : fuel ≠ 0)
    rw [replayLoop, h]
    cases e <;> simp [ending, applied]
  | @next src rest tail args reads e h _ ih =>
    intro fuel res st hf
    obtain ⟨fuel, rfl⟩ := Nat.exists_eq_succ_of_ne_zero (by omega : fuel ≠ 0)
    rw [List.length_cons] at hf
    rw [replayLoop, h, applied_cons]
    cases args with
    | nil => exact ih fuel res st (by omega)
    | cons name args =>
      simp only [infallible, encodedLen_eq, if_neg (List.cons_ne_nil name args)]
      rw [ih fuel _ _ (by omega)]
      simp only [List.length_cons, encodeAll_cons, List.length_append,
        List.foldl_cons, Nat.cast_add]
      congr 3 <;> ring

lemma replay_scans (h : Scans file reads tail e) (st : σ) :
    replay (infallible f ε) st (some file) =
      some (ending file ⟨(applied reads).length, (encodeAll (applied reads)).length, 0⟩
        ((applied reads).foldl f st) e) := by
  have hl := h.length_le
  rw [replay, replayFile, replayLoop_scans f h _ _ _ (by omega)]
  simp

end Replay

lemma truncateFile_append (kept tail : Bytes) : truncateFile (kept ++ tail) kept.length = kept := by
  have hpad : kept.length - (kept ++ tail).length = 0 := by
    rw [List.length_append]
    omega
  rw [truncateFile, Int.toNat_natCast, hpad, List.take_left, List.replicate_zero, List.append_nil]

lemma repair_iff {σ ε : Type} (f : σ → List Bytes → σ) (st : σ) {file tail : Bytes}
    {reads : List (Bytes × List Bytes)} {e : ReadError} (hs : Scans file reads tail e)
    {r : Replayed σ ε} (hr : replay (infallible f ε) st (some file) = some r)
    (hok : r.error = none) :
    (r.file = some (file.take (file.length - tail.length)) ∧
      replay (infallible f ε) st r.file =
        some ⟨{ r.result with truncated := 0 }, none, r.state, r.file⟩) ↔
    (e = .unexpectedEOF → ∀ read ∈ reads, AsWritten read) := by
  obtain ⟨consumed, hfile, -, hexact, htight⟩ := hs.consumed
  have hconsumed : file.take (file.length - tail.length) = consumed := by
    rw [hfile, List.length_append, Nat.add_sub_cancel, List.take_left]
  have hreplay := replay_scans (ε := ε) f hs st
  obtain rfl := Option.some.inj (hr.symm.trans hreplay)
  rw [hconsumed]
  cases e with
  | protocol msg => cases hok
  | eof =>
    have htail := eq_nil_of_readCommand_eof hs.stops
    rw [htail, List.append_nil] at hfile
    exact ⟨fun _ he => ReadError.noConfusion he, fun _ => ⟨congrArg some hfile, hreplay⟩⟩
  | unexpectedEOF =>
    simp only [ending, forall_const]
    constructor
    · rintro ⟨hkept, -⟩
      refine htight ?_
      have hlen := congrArg List.length (Option.some.inj hkept)
      rw [truncateFile, Int.toNat_natCast, List.length_append, List.length_take,
        List.length_replicate] at hlen
      omega
    · intro hall
      have hcs := hexact hall
      rw [hfile, hcs, truncateFile_append]
      exact ⟨rfl, replayFile_whole (infallible_accepts f ε _) hs.withinLimits trivial⟩

/-- A replay that reports no error has kept what it consumed, and a second one finds nothing more to
do, exactly when no torn tail came after something that `Append` would have written differently. -/
theorem repair_idempotent_iff_asWritten {σ ε : Type} (f : σ → List Bytes → σ) (st : σ)
    (file : Bytes) {r : Replayed σ ε} (hr : replay (infallible f ε) st (some file) = some r)
    (hok : r.error = none) : (∃ reads tail e, Scans file reads tail e) ∧
    ∀ reads tail e, Scans file reads tail e →
      ((r.file = some (file.take (file.length - tail.length)) ∧
        replay (infallible f ε) st r.file =
          some ⟨{ r.result with truncated := 0 }, none, r.state, r.file⟩) ↔
      (e = .unexpectedEOF → ∀ read ∈ reads, AsWritten read)) :=
  ⟨exists_scans _ file (Nat.lt_succ_self _), fun _ _ _ hs => repair_iff f st hs hr hok⟩

theorem repair_idempotent_torn :
    let file := ascii "*1\r\n$4\r\nPING\r\n*1"
    let once := replay (infallible (fun seen c => seen ++ [c]) Unit) [] (some file)
    once = some ⟨⟨1, 14, 2⟩, none, [[ascii "PING"]], some (file.take 14)⟩ ∧
      replay (infallible (fun seen c => seen ++ [c]) Unit) [] (some (file.take 14)) =
        some ⟨⟨1, 14, 0⟩, none, [[ascii "PING"]], some (file.take 14)⟩ := by
  have hs : Scans (ascii "*1\r\n$4\r\nPING\r\n*1")
      [(ascii "*1\r\n$4\r\nPING\r\n*1", [ascii "PING"])] (ascii "*1") .unexpectedEOF :=
    .next (by decide) (.stop (by decide))
  have hr : replay (infallible (fun seen c => seen ++ [c]) Unit) []
    (some (ascii "*1\r\n$4\r\nPING\r\n*1")) = some
        ⟨⟨1, 14, 2⟩, none, [[ascii "PING"]], some ((ascii "*1\r\n$4\r\nPING\r\n*1").take 14)⟩ := by
          decide
  have hwritten : ∀ read ∈ [(ascii "*1\r\n$4\r\nPING\r\n*1", [ascii "PING"])], AsWritten read := by
    intro read hm
    obtain rfl := List.mem_singleton.1 hm
    exact ⟨by decide, by decide⟩
  exact ⟨hr, (((repair_idempotent_iff_asWritten _ _ _ hr rfl).2 _ _ _ hs).2 fun _ => hwritten).2⟩

/-- A signed count before a torn tail: the file is cut inside the record that was applied, and the
next replay finds that record torn and drops it. An empty array does the same. -/
theorem repair_cuts_into_record :
    let log (file : Bytes) := replay (infallible (fun seen c => seen ++ [c]) Unit) [] (some file)
    log (ascii "*+1\r\n$4\r\nPING\r\n*1") =
    some ⟨⟨1, 14, 3⟩, none, [[ascii "PING"]], some (ascii "*+1\r\n$4\r\nPING\r")⟩ ∧
      log (ascii "*+1\r\n$4\r\nPING\r") = some ⟨⟨0, 0, 14⟩, none, [], some []⟩ ∧
      log (ascii "*0\r\n*1\r\n$4\r\nPING\r\n*1") =
      some ⟨⟨1, 14, 6⟩, none, [[ascii "PING"]], some (ascii "*0\r\n*1\r\n$4\r\nPI")⟩ ∧
      log (ascii "*0\r\n*1\r\n$4\r\nPI") = some ⟨⟨0, 0, 14⟩, none, [], some []⟩ := by
  refine ⟨?_, ?_, ?_, ?_⟩ <;> decide

end RedisClone.Aof
