import Mathlib.Data.List.Forall2
import Mathlib.Logic.Relation

set_option autoImplicit false

/-! # Patterns with wildcards

A pattern is a list of tokens: a wildcard stands for any run of letters, any other token for one
letter out of a set. The letters may be characters, and then a pattern describes a set of words;
they may be words themselves, and then it describes a set of paths.

Two patterns are compared by walking through both at once. `Edge` says how the walk goes on, and
`reaches_end_iff` that it comes to the end of both patterns exactly when they accept words that
are equal up to a reflexive relation on the letters.
-/

namespace Thegn.Wildcard

open Relation List

variable {α : Type}

inductive Token (α : Type)
  | star
  | one (letters : Set α)

/-- The pattern accepts the word. A wildcard only runs over letters of `ok`. -/
inductive Accepts (ok : Set α) : List (Token α) → List α → Prop
  | nil : Accepts ok [] []
  | one {letters ps a w} (h : a ∈ letters) (rest : Accepts ok ps w) :
      Accepts ok (.one letters :: ps) (a :: w)
  | skip {ps w} (rest : Accepts ok ps w) : Accepts ok (.star :: ps) w
  | eat {ps a w} (h : a ∈ ok) (rest : Accepts ok (.star :: ps) w) :
      Accepts ok (.star :: ps) (a :: w)

section

variable {ok : Set α}

theorem Accepts.append {ps qs : List (Token α)} {u v : List α} (hu : Accepts ok ps u)
    (hv : Accepts ok qs v) : Accepts ok (ps ++ qs) (u ++ v) := by
  induction hu with
  | nil => exact hv
  | one h _ ih => exact .one h ih
  | skip _ ih => exact .skip ih
  | eat h _ ih => exact .eat h ih

/-- A wildcard runs over any word. -/
theorem accepts_star {u : List α} (hu : ∀ a ∈ u, a ∈ ok) : Accepts ok [.star] u := by
  induction u with
  | nil => exact .skip .nil
  | cons a u ih =>
    exact .eat (hu a (.head _)) (ih fun b hb => hu b (mem_cons_of_mem a hb))

end

/-! ## Walking through two patterns -/

/-- One step of the walk: a wildcard ends, or runs over the letter the other pattern wants next, or
both patterns want a letter and have related ones. -/
inductive Edge (rel : α → α → Prop) (ps qs : List (Token α)) : ℕ × ℕ → ℕ × ℕ → Prop
  | skipLeft {i j} (h : ps[i]? = some .star) : Edge rel ps qs (i, j) (i + 1, j)
  | skipRight {i j} (h : qs[j]? = some .star) : Edge rel ps qs (i, j) (i, j + 1)
  | eatLeft {i j letters} (hp : ps[i]? = some .star) (hq : qs[j]? = some (.one letters)) :
      Edge rel ps qs (i, j) (i, j + 1)
  | eatRight {i j letters} (hp : ps[i]? = some (.one letters)) (hq : qs[j]? = some .star) :
      Edge rel ps qs (i, j) (i + 1, j)
  | both {i j letters letters'} (hp : ps[i]? = some (.one letters))
      (hq : qs[j]? = some (.one letters'))
      (h : ∃ a ∈ letters, ∃ b ∈ letters', rel a b) : Edge rel ps qs (i, j) (i + 1, j + 1)

theorem edge_iff {rel : α → α → Prop} {ps qs : List (Token α)} {i j : ℕ} {y : ℕ × ℕ} :
    Edge rel ps qs (i, j) y ↔
      (ps[i]? = some .star ∧ (y = (i + 1, j) ∨ y = (i, j + 1) ∧ ∃ l, qs[j]? = some (.one l)))
      ∨ (qs[j]? = some .star ∧ (y = (i, j + 1) ∨ y = (i + 1, j) ∧ ∃ l, ps[i]? = some (.one l)))
      ∨ (y = (i + 1, j + 1) ∧ ∃ l l', ps[i]? = some (.one l) ∧ qs[j]? = some (.one l')
          ∧ ∃ a ∈ l, ∃ b ∈ l', rel a b) := by
  constructor
  · intro h
    cases h with
    | skipLeft h => exact .inl ⟨h, .inl rfl⟩
    | skipRight h => exact .inr (.inl ⟨h, .inl rfl⟩)
    | eatLeft hp hq => exact .inl ⟨hp, .inr ⟨rfl, _, hq⟩⟩
    | eatRight hp hq => exact .inr (.inl ⟨hq, .inr ⟨rfl, _, hp⟩⟩)
    | both hp hq h => exact .inr (.inr ⟨rfl, _, _, hp, hq, h⟩)
  · rintro (⟨hp, rfl | ⟨rfl, l, hq⟩⟩ | ⟨hq, rfl | ⟨rfl, l, hp⟩⟩ | ⟨rfl, l, l', hp, hq, h⟩)
    · exact .skipLeft hp
    · exact .eatLeft hp hq
    · exact .skipRight hq
    · exact .eatRight hp hq
    · exact .both hp hq h

/-- The walk is at the end of both patterns. -/
def AtEnd (ps qs : List (Token α)) (x : ℕ × ℕ) : Prop := x = (ps.length, qs.length)

/-- The patterns accept related words. -/
def Meet (ok : Set α) (rel : α → α → Prop) (ps qs : List (Token α)) : Prop :=
  ∃ u v, Accepts ok ps u ∧ Accepts ok qs v ∧ List.Forall₂ rel u v

theorem drop_eq_cons {β : Type} {l : List β} {i : ℕ} {a : β} (h : l[i]? = some a) :
    l.drop i = a :: l.drop (i + 1) := by
  obtain ⟨hi, rfl⟩ := List.getElem?_eq_some_iff.mp h
  exact drop_eq_getElem_cons hi

section

variable {ok : Set α} {rel : α → α → Prop} {ps qs : List (Token α)}

/-- A step of the walk prolongs the words accepted by what is left of the patterns. -/
theorem Edge.meet (hrefl : ∀ a, rel a a) (hp : ∀ letters, .one letters ∈ ps → ∃ a ∈ letters, a ∈ ok)
    (hq : ∀ letters, .one letters ∈ qs → ∃ a ∈ letters, a ∈ ok) {x y : ℕ × ℕ}
    (h : Edge rel ps qs x y) (hy : Meet ok rel (ps.drop y.1) (qs.drop y.2)) :
    Meet ok rel (ps.drop x.1) (qs.drop x.2) := by
  obtain ⟨u, v, hu, hv, huv⟩ := hy
  cases h with
  | skipLeft h =>
    rw [drop_eq_cons h]
    exact ⟨u, v, .skip hu, hv, huv⟩
  | skipRight h =>
    rw [drop_eq_cons h]
    exact ⟨u, v, hu, .skip hv, huv⟩
  | eatLeft hs ho =>
    obtain ⟨a, ha, hok⟩ := hq _ (mem_of_getElem? ho)
    simp only [drop_eq_cons hs] at hu ⊢
    rw [drop_eq_cons ho]
    exact ⟨a :: u, a :: v, .eat hok hu, .one ha hv, .cons (hrefl a) huv⟩
  | eatRight ho hs =>
    obtain ⟨a, ha, hok⟩ := hp _ (mem_of_getElem? ho)
    simp only [drop_eq_cons hs] at hv ⊢
    rw [drop_eq_cons ho]
    exact ⟨a :: u, a :: v, .one ha hu, .eat hok hv, .cons (hrefl a) huv⟩
  | both hp' hq' h =>
    obtain ⟨a, ha, b, hb, hab⟩ := h
    rw [drop_eq_cons hp', drop_eq_cons hq']
    exact ⟨a :: u, b :: v, .one ha hu, .one hb hv, .cons hab huv⟩

theorem getElem?_of_drop {β : Type} {l l' : List β} {i : ℕ} {a : β} (h : l.drop i = a :: l') :
    l[i]? = some a ∧ l' = l.drop (i + 1) := by
  have hi : i < l.length := by
    by_contra hle
    rw [drop_eq_nil_of_le (by omega)] at h
    cases h
  rw [drop_eq_getElem_cons hi, List.cons.injEq] at h
  exact ⟨by rw [List.getElem?_eq_getElem hi, h.1], h.2.symm⟩

/-- Related words show a way to the end. The induction is on the tokens and letters left. -/
theorem reaches_of_accepts (n : ℕ) : ∀ (i j : ℕ) (u v : List α), i ≤ ps.length → j ≤ qs.length →
    (ps.length - i) + (qs.length - j) + u.length + v.length ≤ n →
    Accepts ok (ps.drop i) u → Accepts ok (qs.drop j) v → List.Forall₂ rel u v →
    ReflTransGen (Edge rel ps qs) (i, j) (ps.length, qs.length) := by
  induction n with
  | zero =>
    intro i j u v hi hj hn _ _ _
    have hi' : i = ps.length := by omega
    have hj' : j = qs.length := by omega
    rw [hi', hj']
  | succ n ih =>
    intro i j u v hi hj hn hu hv huv
    generalize hps : ps.drop i = ps' at hu
    generalize hqs : qs.drop j = qs' at hv
    cases hu with
    | skip rest =>
      obtain ⟨hp, rfl⟩ := getElem?_of_drop hps
      have hlt := (List.getElem?_eq_some_iff.mp hp).1
      exact .head (.skipLeft hp) (ih (i + 1) j u v hlt hj (by omega) rest (hqs ▸ hv) huv)
    | nil =>
      cases hv with
      | nil =>
        have hi' : i = ps.length := Nat.le_antisymm hi (drop_eq_nil_iff.mp hps)
        have hj' : j = qs.length := Nat.le_antisymm hj (drop_eq_nil_iff.mp hqs)
        rw [hi', hj']
      | skip rest =>
        obtain ⟨hq, rfl⟩ := getElem?_of_drop hqs
        have hlt := (List.getElem?_eq_some_iff.mp hq).1
        exact .head (.skipRight hq) (ih i (j + 1) [] v hi hlt (by omega) (hps ▸ .nil) rest huv)
      | one h rest => cases huv
      | eat h rest => cases huv
    | @one letters ps1 a u h rest =>
      obtain ⟨hp, rfl⟩ := getElem?_of_drop hps
      have hlt := (List.getElem?_eq_some_iff.mp hp).1
      cases hv with
      | nil => cases huv
      | skip rest' =>
        obtain ⟨hq, rfl⟩ := getElem?_of_drop hqs
        have hlt' := (List.getElem?_eq_some_iff.mp hq).1
        exact .head (.skipRight hq)
          (ih i (j + 1) (a :: u) v hi hlt' (by omega) (hps ▸ .one h rest) rest' huv)
      | one h' rest' =>
        obtain ⟨hq, rfl⟩ := getElem?_of_drop hqs
        have hlt' := (List.getElem?_eq_some_iff.mp hq).1
        cases huv with
        | cons hab huv =>
          simp only [length_cons] at hn
          exact .head (.both hp hq ⟨a, h, _, h', hab⟩)
            (ih (i + 1) (j + 1) u _ hlt hlt' (by omega) rest rest' huv)
      | eat h' rest' =>
        obtain ⟨hq, rfl⟩ := getElem?_of_drop hqs
        cases huv with
        | cons hab huv =>
          simp only [length_cons] at hn
          exact .head (.eatRight hp hq) (ih (i + 1) j u _ hlt hj (by omega) rest (hqs ▸ rest') huv)
    | @eat ps1 a u h rest =>
      obtain ⟨hp, rfl⟩ := getElem?_of_drop hps
      cases hv with
      | nil => cases huv
      | skip rest' =>
        obtain ⟨hq, rfl⟩ := getElem?_of_drop hqs
        have hlt' := (List.getElem?_eq_some_iff.mp hq).1
        exact .head (.skipRight hq)
          (ih i (j + 1) (a :: u) v hi hlt' (by omega) (hps ▸ .eat h rest) rest' huv)
      | one h' rest' =>
        obtain ⟨hq, rfl⟩ := getElem?_of_drop hqs
        have hlt' := (List.getElem?_eq_some_iff.mp hq).1
        cases huv with
        | cons hab huv =>
          simp only [length_cons] at hn
          exact .head (.eatLeft hp hq) (ih i (j + 1) u _ hi hlt' (by omega) (hps ▸ rest) rest' huv)
      | eat h' rest' =>
        -- both wildcards run: the walk stays, the words get shorter
        cases huv with
        | cons hab huv =>
          simp only [length_cons] at hn
          exact ih i j u _ hi hj (by omega) (hps ▸ rest) (hqs ▸ rest') huv

/-- **The walk decides whether two patterns meet.** -/
theorem reaches_end_iff (hrefl : ∀ a, rel a a)
    (hp : ∀ letters, .one letters ∈ ps → ∃ a ∈ letters, a ∈ ok)
    (hq : ∀ letters, .one letters ∈ qs → ∃ a ∈ letters, a ∈ ok) :
    (∃ x, ReflTransGen (Edge rel ps qs) (0, 0) x ∧ AtEnd ps qs x) ↔ Meet ok rel ps qs := by
  constructor
  · rintro ⟨x, hx, hend⟩
    have hmeet : Meet ok rel (ps.drop x.1) (qs.drop x.2) := by
      rw [hend, drop_length, drop_length]
      exact ⟨[], [], .nil, .nil, .nil⟩
    have hback : ∀ y, ReflTransGen (Edge rel ps qs) y x →
        Meet ok rel (ps.drop y.1) (qs.drop y.2) := by
      intro y hy
      induction hy using ReflTransGen.head_induction_on with
      | refl => exact hmeet
      | head h _ ih => exact h.meet hrefl hp hq ih
    exact hback (0, 0) hx
  · rintro ⟨u, v, hu, hv, huv⟩
    exact ⟨_, reaches_of_accepts _ 0 0 u v (Nat.zero_le _) (Nat.zero_le _) (Nat.le_refl _) hu hv
      huv, rfl⟩

end

end Thegn.Wildcard
