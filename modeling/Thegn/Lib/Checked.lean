import Mathlib

set_option autoImplicit false

/-! # Programs that may fail and may panic

A `Prog σ ε α` works on a state `σ` and answers with a value or an error; an error keeps the state
the program left behind. Arithmetic is checked: an operation out of its range stops the program
without an answer. `Runs x s post` says that `x` answers from `s`, with an answer and a state of
which `post` holds, so a program of which it is proved never panics. There is one rule for each way
programs are put together.
-/

namespace Thegn.Checked

abbrev Prog (σ ε α : Type) := ExceptT ε (StateT σ Option) α

variable {σ τ ε α β : Type}

/-- The answer of the program and the state it leaves, unless it panics. -/
def exec (x : Prog σ ε α) (s : σ) : Option (Except ε α × σ) := x.run.run s

/-- The program on a part of a state. -/
def zoom (part : σ → τ) (put : τ → σ → σ) (x : Prog τ ε α) : Prog σ ε α :=
  ExceptT.mk fun s => (exec x (part s)).map fun r => (r.1, put r.2 s)

/-- `a - b`, which panics when it goes below zero. -/
def subChecked (a b : Nat) : Prog σ ε Nat :=
  if b ≤ a then pure (a - b) else ExceptT.mk fun _ => none

/-- `a + b`, which panics when it does not fit in 64 bits. -/
def addChecked (a b : Nat) : Prog σ ε Nat :=
  if a + b < 2 ^ 64 then pure (a + b) else ExceptT.mk fun _ => none

/-- `x` answers from `s`, and `post` holds of its answer and the state it leaves. -/
def Runs (x : Prog σ ε α) (s : σ) (post : Except ε α → σ → Prop) : Prop :=
  ∃ r t, exec x s = some (r, t) ∧ post r t

/-- A condition on values, that also errors have to meet. -/
def onOk (post : α → σ → Prop) (failed : ε → σ → Prop) : Except ε α → σ → Prop
  | .ok a, t => post a t
  | .error e, t => failed e t

@[simp] theorem onOk_ok (post : α → σ → Prop) (failed : ε → σ → Prop) (a : α) (t : σ) :
    onOk post failed (.ok a) t ↔ post a t := Iff.rfl

@[simp] theorem onOk_error (post : α → σ → Prop) (failed : ε → σ → Prop) (e : ε) (t : σ) :
    onOk post failed (.error e) t ↔ failed e t := Iff.rfl

variable {s : σ} {post post' : Except ε α → σ → Prop}

theorem Runs.mono {x : Prog σ ε α} (h : Runs x s post) (himp : ∀ r t, post r t → post' r t) :
    Runs x s post' := by
  obtain ⟨r, t, hx, hpost⟩ := h
  exact ⟨r, t, hx, himp r t hpost⟩

theorem runs_pure {a : α} : Runs (pure a : Prog σ ε α) s post ↔ post (.ok a) s := by
  constructor
  · rintro ⟨r, t, hx, hpost⟩
    cases hx
    exact hpost
  · intro h
    exact ⟨.ok a, s, rfl, h⟩

theorem runs_throw {e : ε} : Runs (throw e : Prog σ ε α) s post ↔ post (.error e) s := by
  constructor
  · rintro ⟨r, t, hx, hpost⟩
    cases hx
    exact hpost
  · intro h
    exact ⟨.error e, s, rfl, h⟩

theorem runs_bind {x : Prog σ ε α} {f : α → Prog σ ε β} {post : Except ε β → σ → Prop} :
    Runs (x >>= f) s post ↔
      Runs x s (onOk (fun a t => Runs (f a) t post) fun e t => post (.error e) t) := by
  have hexec : exec (x >>= f) s = (exec x s).bind fun r =>
      match r.1 with
      | .ok a => exec (f a) r.2
      | .error e => some (.error e, r.2) := by
    unfold exec
    rw [ExceptT.run_bind, StateT.run_bind]
    cases x.run.run s with
    | none => rfl
    | some r =>
      obtain ⟨r, t⟩ := r
      cases r with
      | ok a => rfl
      | error e => rfl
  unfold Runs
  rw [hexec]
  constructor
  · rintro ⟨r, t, hx, hpost⟩
    obtain ⟨⟨r', t'⟩, hx', hf⟩ := Option.bind_eq_some_iff.mp hx
    refine ⟨r', t', hx', ?_⟩
    cases r' with
    | ok a => exact ⟨r, t, hf, hpost⟩
    | error e =>
      cases hf
      exact hpost
  · rintro ⟨r', t', hx', h⟩
    cases r' with
    | ok a =>
      obtain ⟨r, t, hf, hpost⟩ := h
      exact ⟨r, t, by rw [hx']; exact hf, hpost⟩
    | error e => exact ⟨.error e, t', by rw [hx']; rfl, h⟩

theorem runs_get {post : Except ε σ → σ → Prop} :
    Runs (get : Prog σ ε σ) s post ↔ post (.ok s) s := by
  constructor
  · rintro ⟨r, t, hx, hpost⟩
    cases hx
    exact hpost
  · intro h
    exact ⟨.ok s, s, rfl, h⟩

theorem runs_set {t : σ} {post : Except ε PUnit → σ → Prop} :
    Runs (set t : Prog σ ε PUnit) s post ↔ post (.ok ⟨⟩) t := by
  constructor
  · rintro ⟨r, t, hx, hpost⟩
    cases hx
    exact hpost
  · intro h
    exact ⟨.ok ⟨⟩, t, rfl, h⟩

theorem runs_modify {f : σ → σ} {post : Except ε PUnit → σ → Prop} :
    Runs (modify f : Prog σ ε PUnit) s post ↔ post (.ok ⟨⟩) (f s) := by
  constructor
  · rintro ⟨r, t, hx, hpost⟩
    cases hx
    exact hpost
  · intro h
    exact ⟨.ok ⟨⟩, f s, rfl, h⟩

theorem runs_zoom {part : σ → τ} {put : τ → σ → σ} {x : Prog τ ε α} :
    Runs (zoom part put x) s post ↔ Runs x (part s) fun r t => post r (put t s) := by
  constructor
  · rintro ⟨r, t, hx, hpost⟩
    obtain ⟨⟨r', t'⟩, hx', heq⟩ := Option.map_eq_some_iff.mp hx
    cases heq
    exact ⟨r', t', hx', hpost⟩
  · rintro ⟨r, t, hx, hpost⟩
    refine ⟨r, put t s, ?_, hpost⟩
    change (exec x (part s)).map _ = _
    rw [hx]
    rfl

theorem runs_subChecked {a b : Nat} {post : Except ε Nat → σ → Prop} (h : b ≤ a) :
    Runs (subChecked a b) s post ↔ post (.ok (a - b)) s := by
  rw [subChecked, if_pos h, runs_pure]

theorem runs_addChecked {a b : Nat} {post : Except ε Nat → σ → Prop} (h : a + b < 2 ^ 64) :
    Runs (addChecked a b) s post ↔ post (.ok (a + b)) s := by
  rw [addChecked, if_pos h, runs_pure]

end Thegn.Checked

/-! ## Arithmetic nobody checks

A word that unchecked operations compute, with whether one of them overflowed: where overflow is
checked the computation stops there, elsewhere its value wraps. A word tracks a number if it is
computed as the number is, by factors that are not zero; it overflowed exactly if the number does
not fit (`Tracks`).
-/

namespace Thegn.Unchecked

structure Word (w : ℕ) where
  value : BitVec w
  overflowed : Bool
  deriving DecidableEq

namespace Word

variable {w : ℕ}

def const (a : BitVec w) : Word w := ⟨a, false⟩

def mul (x : Word w) (k : BitVec w) : Word w :=
  ⟨x.value * k, x.overflowed || decide (2 ^ w ≤ x.value.toNat * k.toNat)⟩

def add (x y : Word w) : Word w :=
  ⟨x.value + y.value, x.overflowed || y.overflowed ||
    decide (2 ^ w ≤ x.value.toNat + y.value.toNat)⟩

/-- The word `x` is computed as the number `n` is. -/
structure Tracks (x : Word w) (n : ℕ) : Prop where
  overflowed : x.overflowed = decide (2 ^ w ≤ n)
  value : n < 2 ^ w → x.value.toNat = n

variable {x y : Word w} {m n : ℕ} {k : BitVec w}

theorem tracks_const (a : BitVec w) : Tracks (const a) a.toNat where
  overflowed := (decide_eq_false (Nat.not_le.mpr a.isLt)).symm
  value := fun _ => rfl

theorem Tracks.overflowed_iff (h : Tracks x n) : x.overflowed = true ↔ 2 ^ w ≤ n := by
  rw [h.overflowed, decide_eq_true_eq]

theorem Tracks.mul (h : Tracks x n) (hk : 0 < k.toNat) : Tracks (x.mul k) (n * k.toNat) := by
  have hle : n ≤ n * k.toNat := Nat.le_mul_of_pos_right n hk
  constructor
  · rw [Bool.eq_iff_iff]
    simp only [Word.mul, Bool.or_eq_true, decide_eq_true_eq, h.overflowed_iff]
    by_cases hn : n < 2 ^ w
    · rw [h.value hn]
      omega
    · omega
  · intro hlt
    rw [Word.mul, BitVec.toNat_mul, h.value (by omega), Nat.mod_eq_of_lt hlt]

theorem Tracks.add (h : Tracks x n) (h' : Tracks y m) : Tracks (x.add y) (n + m) := by
  constructor
  · rw [Bool.eq_iff_iff]
    simp only [Word.add, Bool.or_eq_true, decide_eq_true_eq, h.overflowed_iff, h'.overflowed_iff]
    by_cases hn : n < 2 ^ w ∧ m < 2 ^ w
    · rw [h.value hn.1, h'.value hn.2]
      omega
    · omega
  · intro hlt
    rw [Word.add, BitVec.toNat_add, h.value (by omega), h'.value (by omega), Nat.mod_eq_of_lt hlt]

end Word

end Thegn.Unchecked
