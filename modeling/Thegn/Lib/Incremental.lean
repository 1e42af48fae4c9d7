import Mathlib.Data.List.Basic

set_option autoImplicit false

/-! # Reading a stream piece by piece

A reader of items from the left of a stream sees only a beginning of it: `next` finds an item at the
left of the buffer, fails there, or needs more. It is `Stable` when what it says of a buffer does
not change by what arrives later. Items are then the same wherever the stream is cut: draining what
has arrived after each piece gives the items of the whole stream (`Feeds.of_drains`).
-/

namespace Thegn.Incremental

open List

variable {β φ ε : Type}

/-- What stands at the left of a buffer. -/
inductive Next (β φ ε : Type)
  | more
  | item (x : φ) (rest : List β)
  | fail (e : ε)
  deriving DecidableEq

/-- What was found does not change by what arrives later. -/
structure Stable (next : List β → Next β φ ε) : Prop where
  item : ∀ {buf x rest}, next buf = .item x rest → ∀ later,
    next (buf ++ later) = .item x (rest ++ later)
  fail : ∀ {buf e}, next buf = .fail e → ∀ later, next (buf ++ later) = .fail e

/-- Reading as long as there is an item: the items, and what is left. -/
inductive Drains (next : List β → Next β φ ε) : List β → List φ → List β → Prop
  | stop {buf : List β} : next buf = .more → Drains next buf [] buf
  | item {buf rest left : List β} {x : φ} {xs : List φ} :
      next buf = .item x rest → Drains next rest xs left → Drains next buf (x :: xs) left

/-- Draining after each of the pieces. -/
inductive Feeds (next : List β → Next β φ ε) : List β → List (List β) → List φ → List β → Prop
  | nil {buf : List β} : Feeds next buf [] [] buf
  | cons {buf mid left piece : List β} {pieces : List (List β)} {xs ys : List φ} :
      Drains next (buf ++ piece) xs mid → Feeds next mid pieces ys left →
        Feeds next buf (piece :: pieces) (xs ++ ys) left

variable {next : List β → Next β φ ε}

/-- What is left after draining has no item. -/
theorem Drains.left_more {buf left : List β} {xs : List φ} (h : Drains next buf xs left) :
    next left = .more := by
  induction h with
  | stop h => exact h
  | item _ _ ih => exact ih

/-- **A stream can be cut anywhere**: what is found before the cut comes first. -/
theorem Drains.split (hs : Stable next) {a b left : List β} {zs : List φ}
    (h : Drains next (a ++ b) zs left) :
    ∃ xs mid ys, Drains next a xs mid ∧ Drains next (mid ++ b) ys left ∧ zs = xs ++ ys := by
  generalize hbuf : a ++ b = buf at h
  induction h generalizing a with
  | @stop buf hmore =>
    subst hbuf
    cases ha : next a with
    | more => exact ⟨[], a, [], .stop ha, .stop hmore, rfl⟩
    | item x rest =>
      rw [hs.item ha b] at hmore
      cases hmore
    | fail e =>
      rw [hs.fail ha b] at hmore
      cases hmore
  | @item buf rest left x xs hitem hrest ih =>
    subst hbuf
    cases ha : next a with
    | more => exact ⟨[], a, x :: xs, .stop ha, .item hitem hrest, rfl⟩
    | item x' rest' =>
      rw [hs.item ha b] at hitem
      cases hitem
      obtain ⟨ys, mid, zs, hys, hzs, heq⟩ := ih rfl
      exact ⟨x :: ys, mid, zs, .item ha hys, hzs, by rw [heq, cons_append]⟩
    | fail e =>
      rw [hs.fail ha b] at hitem
      cases hitem

/-- **Piece by piece the items of the whole stream are read**, wherever it is cut. -/
theorem Feeds.of_drains (hs : Stable next) {pieces : List (List β)} {buf left : List β}
    {xs : List φ} (hbuf : next buf = .more) (h : Drains next (buf ++ pieces.flatten) xs left) :
    Feeds next buf pieces xs left := by
  induction pieces generalizing buf xs with
  | nil =>
    rw [flatten_nil, append_nil] at h
    cases h with
    | stop _ => exact .nil
    | item hitem _ =>
      rw [hbuf] at hitem
      cases hitem
  | cons piece pieces ih =>
    rw [flatten_cons, ← append_assoc] at h
    obtain ⟨ys, mid, zs, hys, hzs, rfl⟩ := Drains.split hs h
    exact .cons hys (ih hys.left_more hzs)

end Thegn.Incremental
