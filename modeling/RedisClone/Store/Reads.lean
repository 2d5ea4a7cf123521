import RedisClone.Store.Expiry

namespace RedisClone.Store

open Lib Lib.Program

def Quiet : Act → Prop
  | .now | .config | .stats | .getRead _ _ | .getCollect _ | .lookup _ | .shardUsed _
  | .shardLive _ _ => True
  | _ => False

def Quietly (T : ℤ) (w w' : Image) : Prop :=
  w'.journal = w.journal ∧ w.keyspace.Collected T w'.keyspace

lemma Quietly.refl (T : ℤ) (w : Image) : Quietly T w w := ⟨rfl, .refl _ _⟩

lemma Quietly.trans {T : ℤ} {w₁ w₂ w₃ : Image} (h : Quietly T w₁ w₂) (h' : Quietly T w₂ w₃) :
    Quietly T w₁ w₃ :=
  ⟨h'.1.trans h.1, h.2.trans h'.2⟩

lemma actSpec_quiet {T : ℤ} {a : Act} {i : Input} {r : a.Resp} {w w' : Image}
    (hT : i.time ≤ T) (ha : Quiet a) (h : ActSpec a i r w w') : Quietly T w w' := by
  cases a with
  | getCollect key =>
    obtain rfl := actSpec_getCollect.1 h
    exact ⟨rfl, (w.keyspace.collect_collected key i.time).mono hT⟩
  | now | getRead | lookup | shardLive | config | stats | shardUsed =>
    obtain rfl := ActSpec.unchanged rfl h
    exact .refl T w'
  | _ => exact absurd ha id

lemma quietly_of_only {α : Type} {p : Prog α} (hp : Only Quiet p) {T : ℤ} {inputs : ℕ → Input}
    {w w' : Image} {n : ℕ} {b : α} (hT : ∀ i, (inputs i).time ≤ T)
    (h : Runs ActSpec p inputs w n b w') : Quietly T w w' :=
  Runs.of_only (Quietly.refl T) Quietly.trans hp (fun _ _ _ _ i ha => actSpec_quiet (hT i) ha) h

lemma quiet_invoke {α : Type} {a : Act} {f : a.Resp → Prog α} (ha : Quiet a)
    (hf : ∀ r, Only Quiet (f r)) : Only Quiet (invoke a >>= f) := (Only.call ha).bind hf

lemma quiet_act {a : Act} (ha : Quiet a) : Only Quiet (invoke a) := .act ha fun _ => .done _

lemma quiet_get (key : Key) : Only Quiet (Store.get key) := by
  refine quiet_invoke trivial fun now => quiet_invoke trivial fun r => ?_
  cases r with
  | missing => exact .done _
  | hit val => exact .done _
  | expired => exact quiet_invoke trivial fun _ => .done _

lemma quiet_ttl (key : Key) : Only Quiet (Store.ttl key) := by
  refine quiet_invoke trivial fun now => quiet_invoke trivial fun r => ?_
  cases r with
  | none => exact .done _
  | some e =>
    simp only
    cases e.expiresAt <;> exact .done _

lemma quiet_countExisting (now : ℤ) (keys : List Key) :
    ∀ n, Only Quiet (countExisting now keys n) := by
  induction keys with
  | nil => exact fun n => .done n
  | cons key keys ih =>
    intro n
    refine quiet_invoke trivial fun r => ?_
    cases r <;> exact ih _

lemma quiet_exists (keys : List Key) : Only Quiet (Store.exists_ keys) :=
  quiet_invoke trivial fun now => quiet_countExisting now keys 0

lemma quiet_sumShards {N : Type} [Add N] {subtotal : ShardId → Prog N}
    (hs : ∀ i, Only Quiet (subtotal i)) (ids : List ShardId) :
    ∀ n, Only Quiet (sumShards subtotal ids n) := by
  induction ids with
  | nil => exact fun n => .done n
  | cons i ids ih => exact fun n => (hs i).bind fun m => ih (n + m)

lemma quiet_used : Only Quiet used :=
  quiet_sumShards (fun i => quiet_act (a := .shardUsed i) trivial) _ _

lemma quiet_dbSize : Only Quiet dbSize :=
  quiet_invoke trivial fun now =>
    quiet_sumShards (fun i => quiet_act (a := .shardLive i now) trivial) _ _

end RedisClone.Store
