import Mathlib.Data.List.Basic
import Mathlib.Data.Option.Basic
import Mathlib.Data.List.Induction

set_option autoImplicit false

/-! # Runs of a machine

`run step s moves` takes the moves one after another from `s`; a move the machine cannot take ends
the run without a state. A property of states that every possible move keeps is kept by every run
(`run_induction`).
-/

namespace Thegn.Run

variable {S M : Type} (step : S → M → Option S)

/-- The state after the moves, if all of them were possible. -/
def run : S → List M → Option S
  | s, [] => some s
  | s, m :: ms => (step s m).bind fun t => run t ms

variable {step}

@[simp] theorem run_nil (s : S) : run step s [] = some s := rfl

theorem run_cons {s u : S} {m : M} {ms : List M} :
    run step s (m :: ms) = some u ↔ ∃ t, step s m = some t ∧ run step t ms = some u := by
  rw [run, Option.bind_eq_some_iff]

/-- The invariant rule for a run whose moves are known. -/
theorem run_induction_mem {Inv : S → Prop} {s u : S} {ms : List M}
    (hstep : ∀ s, ∀ m ∈ ms, ∀ t, Inv s → step s m = some t → Inv t)
    (hs : Inv s) (h : run step s ms = some u) : Inv u := by
  induction ms generalizing s with
  | nil =>
    cases h
    exact hs
  | cons m ms ih =>
    obtain ⟨t, hm, hms⟩ := run_cons.mp h
    have ht : Inv t := hstep s m (.head _) t hs hm
    exact ih (fun s' m' hm' => hstep s' m' (.tail _ hm')) ht hms

/-- **The invariant rule**: what every possible move keeps, every run keeps. -/
theorem run_induction {Inv : S → Prop} (hstep : ∀ s m t, Inv s → step s m = some t → Inv t)
    {s u : S} {ms : List M} (hs : Inv s) (h : run step s ms = some u) : Inv u :=
  run_induction_mem (fun s m _ t => hstep s m t) hs h

end Thegn.Run

/-! ## Machines that answer every input

`step s a` is the answer to the input `a` in state `s` and the state afterwards. `after` is the
state after a list of inputs and `answers` are the answers to them, one each. Both are cut where the
inputs are (`after_append`, `answers_append`), and a property of the inputs so far and the state
that one more input keeps holds after every list of inputs (`after_induction`).
-/

namespace Thegn.Transducer

variable {S A B : Type} (step : S → A → B × S)

/-- The state after the inputs. -/
def after (s : S) (as : List A) : S := as.foldl (fun s a => (step s a).2) s

/-- The answers to the inputs. -/
def answers : S → List A → List B
  | _, [] => []
  | s, a :: as => (step s a).1 :: answers (step s a).2 as

@[simp] theorem after_nil (s : S) : after step s [] = s := rfl

@[simp] theorem after_cons (s : S) (a : A) (as : List A) :
    after step s (a :: as) = after step (step s a).2 as := rfl

theorem after_append (s : S) (as bs : List A) :
    after step s (as ++ bs) = after step (after step s as) bs := List.foldl_append

theorem after_concat (s : S) (as : List A) (a : A) :
    after step s (as ++ [a]) = (step (after step s as) a).2 := after_append step s as [a]

@[simp] theorem answers_nil (s : S) : answers step s [] = [] := rfl

@[simp] theorem answers_cons (s : S) (a : A) (as : List A) :
    answers step s (a :: as) = (step s a).1 :: answers step (step s a).2 as := rfl

theorem answers_append (s : S) (as bs : List A) :
    answers step s (as ++ bs) = answers step s as ++ answers step (after step s as) bs := by
  induction as generalizing s with
  | nil => rfl
  | cons a as ih => simp [ih]

variable {step}

/-- **The invariant rule**: a relation between the inputs so far and the state that every input
keeps. -/
theorem after_induction (Inv : List A → S → Prop) {s : S} (hs : Inv [] s)
    (hstep : ∀ as a, Inv as (after step s as) → Inv (as ++ [a]) (step (after step s as) a).2)
    (as : List A) : Inv as (after step s as) := by
  induction as using List.reverseRecOn with
  | nil => exact hs
  | append_singleton as a ih =>
    rw [after_concat]
    exact hstep as a ih

end Thegn.Transducer
