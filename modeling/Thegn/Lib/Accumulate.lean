import Mathlib.Algebra.BigOperators.Group.List.Basic
import Mathlib.Algebra.Group.Prod

set_option autoImplicit false

/-! # Sums that stop when they leave a set

An accumulator of which only the values in `P` can be represented: `Adds P f n` says that `f` adds
`n` when the sum is in `P`, and fails when it is not. A sum that is in `P` was never outside of it,
so accumulations in a row add what they add together (`Adds.bind`), and a loop adds the sum over its
list (`Adds.foldlM`).
-/

namespace Thegn.Accumulate

variable {A ε α β : Type}

theorem bind_eq_ok {x : Except ε α} {f : α → Except ε β} {b : β} :
    x >>= f = .ok b ↔ ∃ a, x = .ok a ∧ f a = .ok b := by
  cases x with
  | error e =>
    constructor
    · intro h
      cases h
    · rintro ⟨a, h, -⟩
      cases h
  | ok a =>
    constructor
    · exact fun h => ⟨a, rfl, h⟩
    · rintro ⟨a', h, hf⟩
      cases h
      exact hf

variable [AddCommMonoid A] {P : A → Prop}

def Adds (P : A → Prop) (f : A → Except ε A) (n : A) : Prop :=
  ∀ a r, P a → (f a = .ok r ↔ P (a + n) ∧ r = a + n)

variable {f g : A → Except ε A} {n m : A}

theorem Adds.ok (h : Adds P f n) {a r : A} (ha : P a) : f a = .ok r ↔
    P (a + n) ∧ r = a + n := h a r ha

theorem Adds.pure : Adds P (pure : A → Except ε A) 0 := by
  intro a r ha
  rw [add_zero]
  constructor
  · intro h
    cases h
    exact ⟨ha, rfl⟩
  · rintro ⟨-, rfl⟩
    rfl

theorem Adds.bind (hP : ∀ a b, P (a + b) → P a) (hf : Adds P f n) (hg : Adds P g m) :
    Adds P (fun a => f a >>= g) (n + m) := by
  intro a r ha
  rw [bind_eq_ok, ← add_assoc]
  constructor
  · rintro ⟨b, hb, hr⟩
    obtain ⟨hPb, rfl⟩ := (hf a b ha).mp hb
    exact (hg _ r hPb).mp hr
  · rintro ⟨hPr, rfl⟩
    have hPb : P (a + n) := hP _ _ hPr
    exact ⟨a + n, (hf a _ ha).mpr ⟨hPb, rfl⟩, (hg _ _ hPb).mpr ⟨hPr, rfl⟩⟩

theorem Adds.foldlM (hP : ∀ a b, P (a + b) → P a) {step : A → α → Except ε A} {cost : α → A}
    {l : List α} (h : ∀ x ∈ l, Adds P (fun a => step a x) (cost x)) :
    Adds P (fun a => l.foldlM step a) (l.map cost).sum := by
  induction l with
  | nil => exact Adds.pure
  | cons x l ih =>
    have hx := h x (.head _)
    have hrest := ih fun y hy => h y (.tail _ hy)
    rw [List.map_cons, List.sum_cons]
    have hfold : (fun a => (x :: l).foldlM step a) = fun a => step a x >>= fun a =>
      l.foldlM step a := by
      funext a
      rw [List.foldlM_cons]
    rw [hfold]
    exact Adds.bind hP hx hrest

/-! ## Numbers below a bound -/

variable {bound : Nat}

/-- `checked_add`, in a type that holds the numbers below the bound. -/
def addBelow (bound : Nat) (e : ε) (a b : Nat) : Except ε Nat :=
  if a + b < bound then .ok (a + b) else .error e

theorem addBelow_eq_ok {e : ε} {a b c : Nat} : addBelow bound e a b = .ok c ↔
    a + b < bound ∧ c = a + b := by
  rw [addBelow]
  split_ifs with h
  · exact ⟨fun heq => ⟨h, (Except.ok.inj heq).symm⟩, fun heq => heq.2 ▸ rfl⟩
  · exact ⟨fun heq => (by cases heq), fun heq => absurd heq.1 h⟩

/-- `checked_mul`. -/
def mulBelow (bound : Nat) (e : ε) (a b : Nat) : Except ε Nat :=
  if a * b < bound then .ok (a * b) else .error e

theorem mulBelow_eq_ok {e : ε} {a b c : Nat} : mulBelow bound e a b = .ok c ↔
    a * b < bound ∧ c = a * b := by
  rw [mulBelow]
  split_ifs with h
  · exact ⟨fun heq => ⟨h, (Except.ok.inj heq).symm⟩, fun heq => heq.2 ▸ rfl⟩
  · exact ⟨fun heq => (by cases heq), fun heq => absurd heq.1 h⟩

theorem below_of_add (a b : Nat) (h : a + b < bound) : a < bound := by omega

theorem Adds.addBelow (e : ε) (n : Nat) : Adds (· < bound) (addBelow bound e · n) n :=
  fun _ _ _ => addBelow_eq_ok

/-- A product is added. -/
theorem Adds.mulBelow (e : ε) (n m : Nat) :
    Adds (· < bound) (fun a => mulBelow bound e n m >>= fun b => Accumulate.addBelow bound e a b)
      (n * m) := by
  intro a r _
  rw [bind_eq_ok]
  constructor
  · rintro ⟨b, hb, hr⟩
    obtain ⟨-, rfl⟩ := mulBelow_eq_ok.mp hb
    exact addBelow_eq_ok.mp hr
  · rintro ⟨hlt, rfl⟩
    exact ⟨n * m, mulBelow_eq_ok.mpr ⟨by omega, rfl⟩, addBelow_eq_ok.mpr ⟨hlt, rfl⟩⟩

/-- Both numbers are below the bound. -/
def Below (bound : Nat) (a : Nat × Nat) : Prop := a.1 < bound ∧ a.2 < bound

theorem Below.of_add (a b : Nat × Nat) (h : Below bound (a + b)) : Below bound a :=
  ⟨below_of_add _ _ h.1, below_of_add _ _ h.2⟩

/-- An accumulation in the first of two numbers. -/
theorem Adds.fst {f : Nat → Except ε Nat} {n : Nat} (h : Adds (· < bound) f n) :
    Adds (Below bound) (fun a => f a.1 >>= fun x => .ok (x, a.2)) (n, 0) := by
  rintro ⟨a, b⟩ ⟨r, s⟩ ⟨ha, hb⟩
  rw [bind_eq_ok]
  constructor
  · rintro ⟨x, hx, heq⟩
    obtain ⟨hlt, rfl⟩ := (h a x ha).mp hx
    cases heq
    exact ⟨⟨hlt, hb⟩, rfl⟩
  · rintro ⟨⟨hlt, -⟩, heq⟩
    cases heq
    exact ⟨a + n, (h a _ ha).mpr ⟨hlt, rfl⟩, rfl⟩

/-- An accumulation in the second of two numbers. -/
theorem Adds.snd {f : Nat → Except ε Nat} {n : Nat} (h : Adds (· < bound) f n) :
    Adds (Below bound) (fun a => f a.2 >>= fun x => .ok (a.1, x)) (0, n) := by
  rintro ⟨a, b⟩ ⟨r, s⟩ ⟨ha, hb⟩
  rw [bind_eq_ok]
  constructor
  · rintro ⟨x, hx, heq⟩
    obtain ⟨hlt, rfl⟩ := (h b x hb).mp hx
    cases heq
    exact ⟨⟨ha, hlt⟩, rfl⟩
  · rintro ⟨⟨-, hlt⟩, heq⟩
    cases heq
    exact ⟨b + n, (h b _ hb).mpr ⟨hlt, rfl⟩, rfl⟩

end Thegn.Accumulate
