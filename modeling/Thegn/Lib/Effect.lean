import Mathlib

set_option autoImplicit false

/-! # Fallible computations on a state, with a ghost log

`Eff σ ε` is the type of computations that read and change a state `σ` and may fail. A program
that only reaches the outside world through some operations can be run with operations that also
write to a log. `Erases x y` says that the logged computation `x` is the computation `y` when the
log is forgotten; it is kept by the ways computations are put together, so it is enough to check
it for the operations.
-/

namespace Thegn.Effect

abbrev Eff (σ ε α : Type) := StateT σ (Except ε) α

variable {σ ε τ α β : Type}

/-- A sequence succeeds when both parts do. -/
theorem run_bind_ok {x : Eff σ ε α} {f : α → Eff σ ε β} {s : σ} {r : β × σ} :
    (x >>= f).run s = .ok r ↔ ∃ a t, x.run s = .ok (a, t) ∧ (f a).run t = .ok r := by
  rw [StateT.run_bind]
  cases hx : x.run s with
  | error e => simp [bind, Except.bind]
  | ok at' =>
    obtain ⟨a, t⟩ := at'
    constructor
    · intro h
      exact ⟨a, t, rfl, h⟩
    · rintro ⟨a', t', h, hf⟩
      cases h
      exact hf

theorem run_pure_ok {a : α} {s : σ} {r : α × σ} :
    (pure a : Eff σ ε α).run s = .ok r ↔ r = (a, s) := by
  constructor
  · intro h
    cases h
    rfl
  · intro h
    rw [h]
    rfl

/-- Some run of `x` returns `a`. -/
def Answers (x : Eff σ ε α) (a : α) : Prop := ∃ s t, x.run s = .ok (a, t)

/-! ## Forgetting the log -/

/-- The logged computation `x` does what `y` does. -/
def Erases (x : Eff (σ × List τ) ε α) (y : Eff σ ε α) : Prop :=
  ∀ s log, (x.run (s, log)).map (fun r => (r.1, r.2.1)) = y.run s

theorem Erases.pure (a : α) : Erases (pure a : Eff (σ × List τ) ε α) (pure a) :=
  fun _ _ => rfl

theorem Erases.throw (e : ε) : Erases (throw e : Eff (σ × List τ) ε α) (throw e) :=
  fun _ _ => rfl

theorem Erases.bind {x : Eff (σ × List τ) ε α} {y : Eff σ ε α} {f : α → Eff (σ × List τ) ε β}
    {g : α → Eff σ ε β} (h : Erases x y) (hf : ∀ a, Erases (f a) (g a)) :
    Erases (x >>= f) (y >>= g) := by
  intro s log
  have hx := h s log
  rw [StateT.run_bind, StateT.run_bind, ← hx]
  cases x.run (s, log) with
  | error e => rfl
  | ok r =>
    obtain ⟨a, t, log'⟩ := r
    exact hf a t log'

/-! ## Logging and observing -/

/-- An operation that leaves the log alone. -/
def quiet (x : Eff σ ε α) : Eff (σ × List τ) ε α :=
  fun st => (x.run st.1).map (fun r => (r.1, (r.2, st.2)))

/-- An operation whose success is logged. -/
def logged (entry : α → τ) (x : Eff σ ε α) : Eff (σ × List τ) ε α :=
  fun st => (x.run st.1).map (fun r => (r.1, (r.2, st.2 ++ [entry r.1])))

/-- Run with an empty log and return the log with the result. -/
def observe (x : Eff (σ × List τ) ε α) : Eff σ ε (α × List τ) :=
  fun s => (x.run (s, [])).map (fun r => ((r.1, r.2.2), r.2.1))

theorem Erases.quiet (x : Eff σ ε α) : Erases (τ := τ) (quiet x) x := by
  intro s log
  show Except.map _ (Except.map _ (x.run s)) = x.run s
  cases x.run s with
  | error e => rfl
  | ok r => rfl

theorem Erases.logged (entry : α → τ) (x : Eff σ ε α) : Erases (logged entry x) x := by
  intro s log
  show Except.map _ (Except.map _ (x.run s)) = x.run s
  cases x.run s with
  | error e => rfl
  | ok r => rfl

theorem quiet_pure (a : α) : quiet (τ := τ) (pure a : Eff σ ε α) = pure a := rfl

/-- A sequence of operations that leave the log alone. -/
theorem quiet_bind (x : Eff σ ε α) (f : α → Eff σ ε β) :
    quiet (τ := τ) (x >>= f) = quiet x >>= fun a => quiet (f a) := by
  funext st
  show Except.map _ ((x >>= f).run st.1) = (quiet x >>= fun a => quiet (f a)).run st
  rw [StateT.run_bind, StateT.run_bind]
  show _ = (Except.map _ (x.run st.1) >>= _)
  cases x.run st.1 with
  | error e => rfl
  | ok r => rfl

theorem run_quiet_ok {x : Eff σ ε α} {s t : σ} {log log' : List τ} {a : α} :
    (quiet x).run (s, log) = .ok (a, (t, log')) ↔ x.run s = .ok (a, t) ∧ log' = log := by
  show Except.map _ (x.run s) = _ ↔ _
  cases x.run s with
  | error e => simp [Except.map]
  | ok r =>
    obtain ⟨a', t'⟩ := r
    simp only [Except.map, Except.ok.injEq, Prod.mk.injEq]
    tauto

theorem run_logged_ok {entry : α → τ} {x : Eff σ ε α} {s t : σ} {log log' : List τ} {a : α} :
    (logged entry x).run (s, log) = .ok (a, (t, log'))
      ↔ x.run s = .ok (a, t) ∧ log' = log ++ [entry a] := by
  show Except.map _ (x.run s) = _ ↔ _
  cases x.run s with
  | error e => simp [Except.map]
  | ok r =>
    obtain ⟨a', t'⟩ := r
    simp only [Except.map, Except.ok.injEq, Prod.mk.injEq]
    constructor
    · rintro ⟨rfl, rfl, rfl⟩
      exact ⟨⟨rfl, rfl⟩, rfl⟩
    · rintro ⟨⟨rfl, rfl⟩, rfl⟩
      exact ⟨rfl, rfl, rfl⟩

theorem run_observe_ok {x : Eff (σ × List τ) ε α} {s t : σ} {a : α} {log : List τ} :
    (observe x).run s = .ok ((a, log), t) ↔ x.run (s, []) = .ok (a, (t, log)) := by
  show Except.map _ (x.run (s, [])) = _ ↔ _
  cases x.run (s, []) with
  | error e => simp [Except.map]
  | ok r =>
    obtain ⟨a', t', log'⟩ := r
    simp only [Except.map, Except.ok.injEq, Prod.mk.injEq]
    tauto

/-- **Observing changes nothing**: a computation may be replaced by its observed logged form. -/
theorem observe_bind {x : Eff (σ × List τ) ε α} {y : Eff σ ε α} (h : Erases x y)
    (f : α → Eff σ ε β) : (observe x >>= fun p => f p.1) = y >>= f := by
  funext s
  show (observe x >>= fun p => f p.1).run s = (y >>= f).run s
  rw [StateT.run_bind, StateT.run_bind, ← h s []]
  show (Except.map _ (x.run (s, [])) >>= _) = (Except.map _ (x.run (s, [])) >>= _)
  cases x.run (s, []) with
  | error e => rfl
  | ok r => rfl

end Thegn.Effect
