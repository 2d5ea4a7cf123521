import Mathlib.Tactic

namespace RedisClone.Lib

abbrev Faults := ℕ → Option ℕ

/-- The file, how many writes it has seen, and the buffer in front of it. Once a write has
failed the writer does nothing any more. -/
structure BufferedWriter (B : Type) where
  file : List B
  ops : ℕ
  buf : List B
  failed : Bool

namespace BufferedWriter

variable {B : Type}

def fresh (file : List B) (ops : ℕ) : BufferedWriter B := ⟨file, ops, [], false⟩

section Operations

variable (size : ℕ) (faults : Faults)

def writeFile (p : List B) (w : BufferedWriter B) : List B × BufferedWriter B :=
  match faults w.ops with
  | none => ([], { w with file := w.file ++ p, ops := w.ops + 1 })
  | some k => (p.drop k, { w with file := w.file ++ p.take k, ops := w.ops + 1, failed := true })

def flush (w : BufferedWriter B) : BufferedWriter B :=
  if w.failed ∨ w.buf = [] then w
  else
    let done := w.writeFile faults w.buf
    { done.2 with buf := done.1 }

def writeEmpty (p : List B) (w : BufferedWriter B) : BufferedWriter B :=
  if p.length ≤ size then { w with buf := p } else (w.writeFile faults p).2

def write (p : List B) (w : BufferedWriter B) : BufferedWriter B :=
  if w.failed then w
  else if p.length ≤ size - w.buf.length then { w with buf := w.buf ++ p }
  else if w.buf = [] then w.writeEmpty size faults p
  else
    let room := size - w.buf.length
    let w := { w with buf := w.buf ++ p.take room }.flush faults
    if w.failed then w else w.writeEmpty size faults (p.drop room)

def writeAll : List (List B) → BufferedWriter B → BufferedWriter B
  | [], w => w
  | p :: ps, w =>
    let w := w.write size faults p
    if w.failed then w else writeAll ps w

end Operations

/-- Everything sent has got to the file or the buffer, in order; after a failure the file has
still got nothing but the beginning of it. -/
structure Follows (w : BufferedWriter B) (sent : List B) : Prop where
  written : w.file <+: sent
  complete : w.failed = false → w.file ++ w.buf = sent

variable {w : BufferedWriter B} {sent : List B}

lemma fresh_follows (file : List B) (ops : ℕ) : (fresh file ops).Follows file :=
  ⟨List.prefix_refl _, fun _ => List.append_nil _⟩

lemma Follows.more (h : w.Follows sent) (hf : w.failed = true) (p : List B) :
    w.Follows (sent ++ p) :=
  ⟨h.written.trans (List.prefix_append _ _), fun hn => absurd (hf.symm.trans hn) Bool.noConfusion⟩

variable (size : ℕ) (faults : Faults)

lemma writeFile_follows (p : List B) (h : w.file ++ p = sent) :
    ((w.writeFile faults p).2.file <+: sent) ∧
      ((w.writeFile faults p).2.failed = false → (w.writeFile faults p).2.file = sent ∧
        (w.writeFile faults p).1 = []) := by
  unfold writeFile
  cases faults w.ops with
  | none => exact ⟨h ▸ List.prefix_refl _, fun _ => ⟨h, rfl⟩⟩
  | some k =>
    refine ⟨?_, fun hn => absurd hn Bool.noConfusion⟩
    rw [← h]
    exact (List.prefix_append_right_inj _).2 (List.take_prefix k p)

lemma flush_buf (hf : (w.flush faults).failed = false) : (w.flush faults).buf = [] := by
  unfold flush at hf ⊢
  split_ifs at hf ⊢ with hw
  · rcases hw with hw | hw
    · exact absurd (hw.symm.trans hf) Bool.noConfusion
    · exact hw
  · exact ((writeFile_follows faults w.buf rfl).2 hf).2

lemma flush_follows (h : w.Follows sent) : (w.flush faults).Follows sent := by
  unfold flush
  split_ifs with hw
  · exact h
  · obtain ⟨h₁, h₂⟩ :=
      writeFile_follows faults w.buf (h.complete (by simpa using fun hf => hw (.inl hf)))
    refine ⟨h₁, fun hf => ?_⟩
    obtain ⟨h₃, h₄⟩ := h₂ hf
    simp only [h₃, h₄, List.append_nil]

lemma writeEmpty_follows (p : List B) (h : w.file = sent) (hb : w.buf = []) :
    (w.writeEmpty size faults p).Follows (sent ++ p) := by
  unfold writeEmpty
  split_ifs
  · exact ⟨h ▸ List.prefix_append _ _, fun _ => h ▸ rfl⟩
  · obtain ⟨h₁, h₂⟩ := writeFile_follows faults p (congrArg (· ++ p) h)
    refine ⟨h₁, fun hf => ?_⟩
    have hbuf : (w.writeFile faults p).2.buf = w.buf := by
      unfold writeFile
      cases faults w.ops <;> rfl
    rw [(h₂ hf).1, hbuf, hb, List.append_nil]

lemma Follows.buffer (h : w.Follows sent) (hf : w.failed = false) (p : List B) :
    Follows { w with buf := w.buf ++ p } (sent ++ p) := by
  refine ⟨h.written.trans (List.prefix_append _ _), fun _ => ?_⟩
  rw [← h.complete hf, List.append_assoc]

lemma flush_writeEmpty_follows (p q : List B) (h : w.Follows (sent ++ p)) :
    (if (w.flush faults).failed then w.flush faults
    else (w.flush faults).writeEmpty size faults q).Follows (sent ++ (p ++ q)) := by
  have hflush := flush_follows faults h
  rw [← List.append_assoc]
  split_ifs with hf
  · exact hflush.more hf q
  · rw [Bool.not_eq_true] at hf
    have hfile := hflush.complete hf
    rw [flush_buf faults hf, List.append_nil] at hfile
    exact writeEmpty_follows size faults q hfile (flush_buf faults hf)

lemma write_follows (p : List B) (h : w.Follows sent) :
    (w.write size faults p).Follows (sent ++ p) := by
  unfold write
  split
  · rename_i hf
    exact h.more hf p
  · rename_i hf
    rw [Bool.not_eq_true] at hf
    split
    · exact h.buffer hf p
    · split
      · rename_i hb
        have hc := h.complete hf
        rw [hb, List.append_nil] at hc
        exact writeEmpty_follows size faults p hc hb
      · have hw := flush_writeEmpty_follows size faults (p.take (size - w.buf.length))
          (p.drop (size - w.buf.length)) (h.buffer hf (p.take (size - w.buf.length)))
        rwa [List.take_append_drop] at hw

lemma writeAll_follows (ps : List (List B)) :
    ∀ {w : BufferedWriter B} {sent : List B}, w.Follows sent →
    (w.writeAll size faults ps).Follows (sent ++ ps.flatten) := by
  induction ps with
  | nil => exact fun h => by simpa [writeAll] using h
  | cons p ps ih =>
    intro w sent h
    have hp := write_follows size faults p h
    rw [List.flatten_cons, ← List.append_assoc]
    simp only [writeAll]
    split_ifs with hf
    · exact hp.more hf _
    · exact ih hp

lemma writeFile_extends (p : List B) : w.file <+: (w.writeFile faults p).2.file := by
  unfold writeFile
  cases faults w.ops <;> exact List.prefix_append _ _

lemma flush_extends : w.file <+: (w.flush faults).file := by
  unfold flush
  split_ifs
  · exact List.prefix_refl _
  · exact writeFile_extends faults w.buf

lemma writeEmpty_extends (p : List B) : w.file <+: (w.writeEmpty size faults p).file := by
  unfold writeEmpty
  split_ifs
  · exact List.prefix_refl _
  · exact writeFile_extends faults p

lemma write_extends (p : List B) : w.file <+: (w.write size faults p).file := by
  have hflush (b : List B) : w.file <+: ({ w with buf := b }.flush faults).file :=
    flush_extends (w := { w with buf := b }) faults
  unfold write
  split
  · exact List.prefix_refl _
  · split
    · exact List.prefix_refl _
    · split
      · exact writeEmpty_extends size faults p
      · simp only
        split
        · exact hflush _
        · exact (hflush _).trans (writeEmpty_extends size faults _)

lemma writeAll_extends (ps : List (List B)) :
    ∀ {w : BufferedWriter B}, w.file <+: (w.writeAll size faults ps).file := by
  induction ps with
  | nil => exact List.prefix_refl _
  | cons p ps ih =>
    intro w
    simp only [writeAll]
    split_ifs
    · exact write_extends size faults p
    · exact (write_extends size faults p).trans ih

lemma flush_failed (hn : ∀ n, faults n = none) (h : w.failed = false) :
    (w.flush faults).failed = false := by
  unfold flush
  split_ifs
  · exact h
  · simp only [writeFile, hn, h]

lemma writeEmpty_failed (hn : ∀ n, faults n = none) (h : w.failed = false) (p : List B) :
    (w.writeEmpty size faults p).failed = false := by
  unfold writeEmpty
  split_ifs
  · exact h
  · simp only [writeFile, hn, h]

lemma write_failed (hn : ∀ n, faults n = none) (h : w.failed = false) (p : List B) :
    (w.write size faults p).failed = false := by
  have hflush (b : List B) : ({ w with buf := b }.flush faults).failed = false :=
    flush_failed faults hn h
  unfold write
  split
  · exact h
  · split
    · exact h
    · split
      · exact writeEmpty_failed size faults hn h p
      · simp only
        split
        · exact hflush _
        · exact writeEmpty_failed size faults hn (hflush _) _

lemma writeAll_failed (hn : ∀ n, faults n = none) (ps : List (List B)) :
    ∀ {w : BufferedWriter B}, w.failed = false → (w.writeAll size faults ps).failed = false := by
  induction ps with
  | nil => exact fun h => h
  | cons p ps ih =>
    intro w h
    have hp := write_failed size faults hn h p
    simp only [writeAll, hp, Bool.false_eq_true, if_false]
    exact ih hp

lemma write_buf {p : List B} (hp : p ≠ []) (hle : p.length ≤ size)
    (h : (w.write size faults p).failed = false) : (w.write size faults p).buf ≠ [] := by
  have hempty {w : BufferedWriter B} {q : List B} (hq : q ≠ []) (hl : q.length ≤ size) :
      (w.writeEmpty size faults q).buf ≠ [] := by
    rw [writeEmpty, if_pos hl]
    exact hq
  unfold write at h ⊢
  split at h
  · rename_i hf
    exact absurd (hf.symm.trans h) Bool.noConfusion
  · rename_i hf
    rw [if_neg hf]
    split at h
    · rename_i hroom
      rw [if_pos hroom]
      exact fun hnil => hp (List.append_eq_nil_iff.1 hnil).2
    · rename_i hroom
      rw [if_neg hroom]
      split at h
      · rename_i hb
        rw [if_pos hb]
        exact hempty hp hle
      · rename_i hb
        rw [if_neg hb]
        simp only at h ⊢
        split at h
        · rename_i hfl
          exact absurd (hfl.symm.trans h) Bool.noConfusion
        · rename_i hfl
          rw [if_neg hfl]
          refine hempty (fun hnil => ?_) (by rw [List.length_drop]; omega)
          rw [List.drop_eq_nil_iff] at hnil
          omega

end BufferedWriter

end RedisClone.Lib
