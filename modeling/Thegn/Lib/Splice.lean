import Mathlib

set_option autoImplicit false

/-! # Replacing parts of a list

A list with parts to be replaced is a list of pieces: what is kept, and what is swapped for
something else. `splices` are the replacements with their offsets, `substitute` carries out
replacements given by offsets, all at once and from left to right; the two agree
(`substitute_splices`). Offsets are counted by a size, so that a text can be addressed by the bytes
of its characters.
-/

namespace Thegn.Splice

open List

variable {α β : Type}

/-- A part of a list: kept, or swapped. -/
inductive Piece (α : Type)
  | keep (xs : List α)
  | swap (old new : List α)

def Piece.old : Piece α → List α
  | .keep xs => xs
  | .swap old _ => old

def Piece.new : Piece α → List α
  | .keep xs => xs
  | .swap _ new => new

/-- The list before. -/
def oldOf (ps : List (Piece α)) : List α := ps.flatMap Piece.old

/-- The list after. -/
def newOf (ps : List (Piece α)) : List α := ps.flatMap Piece.new

/-- The part from `start` to `stop` is replaced by `new`. -/
structure Replacement (α : Type) where
  start : Nat
  stop : Nat
  new : List α

/-- The replacements of the pieces, which begin at `pos`. -/
def splices (size : List α → Nat) (pos : Nat) : List (Piece α) → List (Replacement α)
  | [] => []
  | .keep xs :: ps => splices size (pos + size xs) ps
  | .swap old new :: ps =>
    { start := pos, stop := pos + size old, new := new } :: splices size (pos + size old) ps

/-- Carry out replacements, in order, in a list that begins at `pos`. -/
def substitute (pos : Nat) (xs : List α) : List (Replacement α) → List α
  | [] => xs
  | r :: rs => xs.take (r.start - pos) ++ r.new ++ substitute r.stop (xs.drop (r.stop - pos)) rs

@[simp] theorem oldOf_nil : oldOf ([] : List (Piece α)) = [] := rfl

@[simp] theorem oldOf_cons (p : Piece α) (ps : List (Piece α)) :
    oldOf (p :: ps) = p.old ++ oldOf ps := rfl

@[simp] theorem oldOf_append (ps qs : List (Piece α)) : oldOf (ps ++ qs) = oldOf ps ++ oldOf qs :=
  flatMap_append

@[simp] theorem newOf_nil : newOf ([] : List (Piece α)) = [] := rfl

@[simp] theorem newOf_cons (p : Piece α) (ps : List (Piece α)) :
    newOf (p :: ps) = p.new ++ newOf ps := rfl

@[simp] theorem newOf_append (ps qs : List (Piece α)) : newOf (ps ++ qs) = newOf ps ++ newOf qs :=
  flatMap_append

section

variable {size : List α → Nat} (hnil : size [] = 0)
  (hadd : ∀ xs ys, size (xs ++ ys) = size xs + size ys)

include hnil hadd in
theorem splices_append (ps qs : List (Piece α)) :
    ∀ pos, splices size pos (ps ++ qs)
      = splices size pos ps ++ splices size (pos + size (oldOf ps)) qs := by
  induction ps with
  | nil => intro pos; simp [splices, hnil]
  | cons p ps ih =>
    intro pos
    cases p with
    | keep xs => simp [splices, ih, hadd, Piece.old, Nat.add_assoc]
    | swap old new => simp [splices, ih, hadd, Piece.old, Nat.add_assoc]

end

/-- Replacements lie behind the position where the pieces begin. -/
theorem le_start {size : List α → Nat} {ps : List (Piece α)} {pos : Nat} {r : Replacement α}
    (h : r ∈ splices size pos ps) : pos ≤ r.start := by
  induction ps generalizing pos with
  | nil => cases h
  | cons p ps ih =>
    cases p with
    | keep xs =>
      have hle := ih h
      omega
    | swap old new =>
      rcases mem_cons.mp h with rfl | h
      · exact le_refl pos
      · have hle := ih h
        omega

/-- Replacements of something stand one behind the other. -/
theorem splices_pairwise {size : List α → Nat} {ps : List (Piece α)} {pos : Nat}
    (h : ∀ r ∈ splices size pos ps, r.start < r.stop) :
    (splices size pos ps).Pairwise (fun a b => a.start < b.start) := by
  induction ps generalizing pos with
  | nil => exact .nil
  | cons p ps ih =>
    cases p with
    | keep xs => exact ih h
    | swap old new =>
      rw [splices, pairwise_cons]
      constructor
      · intro r hr
        have hpos := h _ (.head _)
        have hle := le_start hr
        exact lt_of_lt_of_le hpos hle
      · exact ih (fun r hr => h r (.tail _ hr))

/-- Without replacements nothing changes. -/
theorem newOf_eq_oldOf {size : List α → Nat} {ps : List (Piece α)} {pos : Nat}
    (h : splices size pos ps = []) : newOf ps = oldOf ps := by
  induction ps generalizing pos with
  | nil => rfl
  | cons p ps ih =>
    cases p with
    | keep xs => rw [newOf_cons, oldOf_cons, ih h]; rfl
    | swap old new => cases h

/-- Moving the pieces moves the replacements. -/
theorem splices_shift (size : List α → Nat) (ps : List (Piece α)) (pos off : Nat) :
    splices size (off + pos) ps
      = (splices size pos ps).map (fun r => ⟨off + r.start, off + r.stop, r.new⟩) := by
  induction ps generalizing pos with
  | nil => rfl
  | cons p ps ih =>
    cases p with
    | keep xs => rw [splices, Nat.add_assoc, ih]; rfl
    | swap old new => rw [splices, Nat.add_assoc, ih]; rfl

/-! ## Substitution -/

/-- The pieces behind a part that was not looked at yet. -/
theorem substitute_splices_append (ps : List (Piece α)) :
    ∀ (pos : Nat) (g : List α),
      substitute pos (g ++ oldOf ps) (splices List.length (pos + g.length) ps) = g ++ newOf ps := by
  induction ps with
  | nil => intro pos g; rfl
  | cons p ps ih =>
    intro pos g
    cases p with
    | keep xs =>
      have hlen : pos + g.length + xs.length = pos + (g ++ xs).length := by
        rw [length_append, Nat.add_assoc]
      rw [splices, hlen, oldOf_cons, newOf_cons, ← append_assoc, ← append_assoc]
      exact ih pos (g ++ xs)
    | swap old new =>
      have hrest := ih (pos + g.length + old.length) []
      rw [nil_append, length_nil, Nat.add_zero, nil_append] at hrest
      rw [splices, substitute]
      show (g ++ oldOf (.swap old new :: ps)).take (pos + g.length - pos) ++ new
        ++ substitute (pos + g.length + old.length)
            ((g ++ oldOf (.swap old new :: ps)).drop (pos + g.length + old.length - pos)) _ = _
      have hdrop : (g ++ oldOf (.swap old new :: ps)).drop (pos + g.length + old.length - pos)
          = oldOf ps := by
        rw [show pos + g.length + old.length - pos = (g ++ old).length by simp; omega, oldOf_cons,
          ← append_assoc]
        exact drop_left
      rw [hdrop, hrest, Nat.add_sub_cancel_left, take_left, append_assoc]
      rfl

/-- **Substitution swaps the pieces.** -/
theorem substitute_splices (ps : List (Piece α)) :
    substitute 0 (oldOf ps) (splices List.length 0 ps) = newOf ps := by
  simpa using substitute_splices_append ps 0 []

/-! ## Pieces under an encoding -/

/-- The piece with its lists encoded. -/
def Piece.map (f : List α → List β) : Piece α → Piece β
  | .keep xs => .keep (f xs)
  | .swap old new => .swap (f old) (f new)

section

variable {f : List α → List β} (hnil : f [] = []) (hadd : ∀ xs ys, f (xs ++ ys) = f xs ++ f ys)

include hnil hadd in
theorem oldOf_map (ps : List (Piece α)) : oldOf (ps.map (Piece.map f)) = f (oldOf ps) := by
  induction ps with
  | nil => exact hnil.symm
  | cons p ps ih =>
    rw [map_cons, oldOf_cons, oldOf_cons, ih, hadd]
    cases p <;> rfl

include hnil hadd in
theorem newOf_map (ps : List (Piece α)) : newOf (ps.map (Piece.map f)) = f (newOf ps) := by
  induction ps with
  | nil => exact hnil.symm
  | cons p ps ih =>
    rw [map_cons, newOf_cons, newOf_cons, ih, hadd]
    cases p <;> rfl

theorem splices_map (f : List α → List β) (ps : List (Piece α)) (pos : Nat) :
    splices List.length pos (ps.map (Piece.map f))
      = (splices (fun xs => (f xs).length) pos ps).map (fun r => ⟨r.start, r.stop, f r.new⟩) := by
  induction ps generalizing pos with
  | nil => rfl
  | cons p ps ih =>
    cases p with
    | keep xs => exact ih _
    | swap old new =>
      rw [map_cons, Piece.map, splices, ih, splices]
      rfl

end

/-! ## Exchanges -/

/-- Exchanging two elements only permutes the list. -/
theorem exchange_perm (l m r : List α) (x y : α) :
    (l ++ y :: (m ++ x :: r)).Perm (l ++ x :: (m ++ y :: r)) := by
  refine List.Perm.append_left l ?_
  have hx : (m ++ x :: r).Perm (x :: (m ++ r)) := perm_middle
  have hy : (m ++ y :: r).Perm (y :: (m ++ r)) := perm_middle
  exact ((hx.cons y).trans (List.Perm.swap x y _)).trans (hy.symm.cons x)

end Thegn.Splice
