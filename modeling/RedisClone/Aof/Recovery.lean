import RedisClone.Aof.Replay

namespace RedisClone.Aof

open Resp

def fitting : List (List Bytes) → ℕ → ℕ
  | [], _ => 0
  | c :: cs, p =>
    if (writeCommand c).length ≤ p then fitting cs (p - (writeCommand c).length) + 1 else 0

lemma fitting_le_length (cs : List (List Bytes)) (p : ℕ) : fitting cs p ≤ cs.length := by
  induction cs generalizing p with
  | nil => exact le_rfl
  | cons c cs ih =>
    simp only [fitting, List.length_cons]
    split_ifs
    · exact Nat.succ_le_succ (ih _)
    · exact Nat.zero_le _

lemma fitting_fits (cs : List (List Bytes)) (p : ℕ) :
    (encodeAll (cs.take (fitting cs p))).length ≤ p := by
  induction cs generalizing p with
  | nil => exact Nat.zero_le _
  | cons c cs ih =>
    simp only [fitting]
    split_ifs with h
    · have hh := ih (p - (writeCommand c).length)
      simp only [List.take_succ_cons, encodeAll_cons, List.length_append]
      omega
    · exact Nat.zero_le _

lemma le_fitting {cs : List (List Bytes)} {p k : ℕ} (hk : k ≤ cs.length)
    (h : (encodeAll (cs.take k)).length ≤ p) : k ≤ fitting cs p := by
  induction cs generalizing p k with
  | nil => exact hk
  | cons c cs ih =>
    cases k with
    | zero => exact Nat.zero_le _
    | succ k =>
      simp only [List.take_succ_cons, encodeAll_cons, List.length_append] at h
      rw [fitting, if_pos (by omega)]
      exact Nat.succ_le_succ (ih (Nat.le_of_succ_le_succ hk) (by omega))

lemma fitting_isGreatest (cs : List (List Bytes)) (p : ℕ) :
    IsGreatest {k | k ≤ cs.length ∧ (encodeAll (cs.take k)).length ≤ p} (fitting cs p) :=
  ⟨⟨fitting_le_length cs p, fitting_fits cs p⟩, fun _ h => le_fitting h.1 h.2⟩

variable {σ : Type} (f : σ → List Bytes → σ)

def infallible (ε : Type) (st : σ) (args : List Bytes) : Except ε σ := .ok (f st args)

structure Accepts {ε : Type} (apply : σ → List Bytes → Except ε σ) (Inv : σ → Prop)
    (cs : List (List Bytes)) : Prop where
  ok : ∀ st, Inv st → ∀ c ∈ cs, apply st c = .ok (f st c)
  inv : ∀ st, Inv st → ∀ c ∈ cs, Inv (f st c)

lemma infallible_accepts (ε : Type) (cs : List (List Bytes)) :
    Accepts f (infallible f ε) (fun _ => True) cs :=
  ⟨fun _ _ _ _ => rfl, fun _ _ _ _ => trivial⟩

variable {f} {ε : Type} {apply : σ → List Bytes → Except ε σ} {Inv : σ → Prop}

/-- The loop on a cut log: `k` whole commands are applied, and the file is cut back
exactly when something of the next one is left. -/
lemma replayLoop_cut (file : Bytes) {cs : List (List Bytes)} (ha : Accepts f apply Inv cs)
    (hcs : ∀ c ∈ cs, WithinLimits c) (p fuel : ℕ) (hp : p ≤ (encodeAll cs).length)
    (hfuel : fitting cs p < fuel) (res : Result) (st : σ) (hst : Inv st) :
    let kept := (encodeAll (cs.take (fitting cs p))).length
    let bytes := res.bytes + kept
    replayLoop apply file fuel ((encodeAll cs).take p) res st =
      some ⟨⟨res.commands + fitting cs p, bytes,
          if kept = p then res.truncated else file.length - bytes⟩, none,
        (cs.take (fitting cs p)).foldl f st,
        some (if kept = p then file else truncateFile file bytes)⟩ := by
  induction cs generalizing p fuel res st with
  | nil =>
    obtain ⟨fuel, rfl⟩ := Nat.exists_eq_succ_of_ne_zero (by omega : fuel ≠ 0)
    obtain rfl : p = 0 := by simpa using hp
    simp [replayLoop_eof, fitting]
  | cons c cs ih =>
    obtain ⟨fuel, rfl⟩ := Nat.exists_eq_succ_of_ne_zero (by omega : fuel ≠ 0)
    have hc := hcs c (by simp)
    dsimp only
    by_cases hfit : (writeCommand c).length ≤ p
    · have hh := ih ⟨fun st hst d hd => ha.ok st hst d (by simp [hd]),
        fun st hst d hd => ha.inv st hst d (by simp [hd])⟩ (fun d hd => hcs d (by simp [hd]))
          (p - (writeCommand c).length) fuel
        (by simp only [encodeAll_cons, List.length_append] at hp; omega)
        (by rw [fitting, if_pos hfit] at hfuel; omega)
        { res with commands := res.commands + 1, bytes := res.bytes + (writeCommand c).length }
          (f st c)
        (ha.inv st hst c (by simp))
      have hkept : (writeCommand c).length + (encodeAll (cs.take (fitting cs
          (p - (writeCommand c).length)))).length = p ↔
          (encodeAll (cs.take (fitting cs (p - (writeCommand c).length)))).length =
            p - (writeCommand c).length := by omega
      rw [encodeAll_cons, List.take_append, List.take_of_length_le hfit,
        replayLoop_command hc fuel _ res (ha.ok st hst c (by simp)), hh]
      simp only [fitting, if_pos hfit, List.take_succ_cons, encodeAll_cons, List.length_append,
        List.foldl_cons, hkept, Nat.cast_add]
      congr 3 <;> simp only [add_assoc, add_comm 1]
    · have hz : fitting (c :: cs) p = 0 := by rw [fitting, if_neg hfit]
      rw [hz, encodeAll_cons, List.take_append_of_le_length (by omega)]
      by_cases hpos : p = 0
      · subst hpos
        simp [replayLoop_eof]
      · rw [replayLoop_torn hc fuel (by omega) (by omega)]
        simp [Ne.symm hpos]

lemma length_le_encodeAll (cs : List (List Bytes)) : cs.length ≤ (encodeAll cs).length := by
  induction cs with
  | nil => exact le_rfl
  | cons c cs ih =>
    have := writeCommand_length_pos c
    simp only [List.length_cons, encodeAll_cons, List.length_append]
    omega

lemma encodeAll_take_prefix (cs : List (List Bytes)) (k : ℕ) :
    (encodeAll cs).take (encodeAll (cs.take k)).length = encodeAll (cs.take k) := by
  have hsplit : encodeAll cs = encodeAll (cs.take k) ++ encodeAll (cs.drop k) := by
    rw [← encodeAll_append, List.take_append_drop]
  rw [hsplit, List.take_left' rfl]

lemma truncateFile_cut {cs : List (List Bytes)} {p k : ℕ} (hp : p ≤ (encodeAll cs).length)
    (hk : (encodeAll (cs.take k)).length ≤ p) :
    truncateFile ((encodeAll cs).take p) (encodeAll (cs.take k)).length =
    encodeAll (cs.take k) := by
  have hpad : (encodeAll (cs.take k)).length - ((encodeAll cs).take p).length = 0 := by
    rw [List.length_take]
    omega
  rw [truncateFile, Int.toNat_natCast, hpad, List.take_take, Nat.min_eq_left hk,
    encodeAll_take_prefix]
  simp

lemma replayFile_cut {cs : List (List Bytes)} (ha : Accepts f apply Inv cs)
    (hcs : ∀ c ∈ cs, WithinLimits c) {p : ℕ} (hp : p ≤ (encodeAll cs).length) {st : σ}
    (hst : Inv st) : replayFile apply ((encodeAll cs).take p) st =
      some ⟨⟨fitting cs p, (encodeAll (cs.take (fitting cs p))).length,
          p - (encodeAll (cs.take (fitting cs p))).length⟩, none,
        (cs.take (fitting cs p)).foldl f st, some (encodeAll (cs.take (fitting cs p)))⟩ := by
  have hlen : ((encodeAll cs).take p).length = p := by rw [List.length_take, Nat.min_eq_left hp]
  have hfit := fitting_fits cs p
  have hfuel : fitting cs p < p + 1 := by
    have hh := length_le_encodeAll (cs.take (fitting cs p))
    rw [List.length_take, Nat.min_eq_left (fitting_le_length cs p)] at hh
    omega
  rw [replayFile, hlen, replayLoop_cut _ ha hcs p (p + 1) hp hfuel _ st hst]
  simp only [zero_add, hlen, truncateFile_cut hp hfit]
  split_ifs with he
  · have hcut := encodeAll_take_prefix cs (fitting cs p)
    rw [he] at hcut
    rw [he, sub_self, hcut]
  · rfl

lemma fitting_whole (cs : List (List Bytes)) : fitting cs (encodeAll cs).length = cs.length := by
  apply le_antisymm (fitting_le_length _ _)
  apply le_fitting le_rfl
  rw [List.take_length]

lemma replayFile_whole {cs : List (List Bytes)} (ha : Accepts f apply Inv cs)
    (hcs : ∀ c ∈ cs, WithinLimits c) {st : σ} (hst : Inv st) :
    replayFile apply (encodeAll cs) st =
      some ⟨⟨cs.length, (encodeAll cs).length, 0⟩, none, cs.foldl f st, some (encodeAll cs)⟩ := by
  have hh := replayFile_cut ha hcs le_rfl hst
  simpa only [fitting_whole, List.take_length, sub_self] using hh

/-- Whatever byte a log is cut at, replay applies exactly the commands that are whole before the
cut, leaves exactly their encodings in the file, and later appends replay after them. -/
theorem replay_cut_at_every_byte (f : σ → List Bytes → σ) (ε : Type) {cs : List (List Bytes)}
    (hcs : ∀ c ∈ cs, WithinLimits c) {p : ℕ} (hp : p ≤ (encodeAll cs).length) (st : σ) :
    ∃ k, IsGreatest {k | k ≤ cs.length ∧ (encodeAll (cs.take k)).length ≤ p} k ∧
      replay (infallible f ε) st (some ((encodeAll cs).take p)) =
        some ⟨⟨k, (encodeAll (cs.take k)).length, p - (encodeAll (cs.take k)).length⟩, none,
          (cs.take k).foldl f st, some (encodeAll (cs.take k))⟩ ∧
      ∀ more : List (List Bytes), (∀ c ∈ more, WithinLimits c) →
        replay (infallible f ε) st (some (encodeAll (cs.take k) ++ encodeAll more)) =
          some ⟨⟨k + more.length, (encodeAll (cs.take k) ++ encodeAll more).length, 0⟩, none,
            (cs.take k ++ more).foldl f st, some (encodeAll (cs.take k) ++ encodeAll more)⟩ := by
  refine ⟨fitting cs p, fitting_isGreatest cs p, replayFile_cut (infallible_accepts f ε cs) hcs
    hp trivial, ?_⟩
  intro more hmore
  have hall : ∀ c ∈ cs.take (fitting cs p) ++ more, WithinLimits c := by
    intro c hc
    rcases List.mem_append.mp hc with hc | hc
    · exact hcs c (List.mem_of_mem_take hc)
    · exact hmore c hc
  have hlen : (cs.take (fitting cs p) ++ more).length = fitting cs p + more.length := by
    rw [List.length_append, List.length_take, Nat.min_eq_left (fitting_le_length cs p)]
  rw [← encodeAll_append, replay, replayFile_whole (infallible_accepts f ε _) hall trivial, hlen]

theorem replay_cut_inside_second_command :
    let cs := [[ascii "SET", ascii "k", ascii "a\r\nb"], [ascii "DEL", ascii "k"]]
    ∃ k, IsGreatest {k | k ≤ cs.length ∧ (encodeAll (cs.take k)).length ≤ 40} k ∧
      replay (infallible (fun seen c => seen ++ [c]) Unit) [] (some ((encodeAll cs).take 40)) =
        some ⟨⟨k, (encodeAll (cs.take k)).length, (40 : ℕ) - (encodeAll (cs.take k)).length⟩, none,
          (cs.take k).foldl (fun seen c => seen ++ [c]) [], some (encodeAll (cs.take k))⟩ := by
  have hcs : ∀ c ∈ [[ascii "SET", ascii "k", ascii "a\r\nb"], [ascii "DEL", ascii "k"]],
      WithinLimits c := by
    intro c hc
    constructor <;> revert c <;> decide
  obtain ⟨k, hk, hr, -⟩ := replay_cut_at_every_byte (fun seen c => seen ++ [c]) Unit hcs
    (by decide : 40 ≤ _) []
  exact ⟨k, hk, hr⟩

end RedisClone.Aof
