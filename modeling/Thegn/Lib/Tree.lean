import Mathlib.Data.List.Basic

set_option autoImplicit false

/-! # Trees with inherited contexts

A tree of arrays and objects with leaves `L` and keys `K`. A `Walk` gives each place of a tree its
context, from the context of the root and the steps to the place. `transform` rewrites every leaf by
its context: a subtree of what it makes is what it makes of the subtree in the context of its place
(`at_transform`). Trees that are alike but for leaves in the relation their context allows (`Alike`)
are made the same if the related leaves are (`transform_eq_of_alike`), and a tree is like what is
made of it (`alike_transform`).
-/

namespace Thegn

inductive Tree (K L : Type)
  | leaf (l : L)
  | arr (items : List (Tree K L))
  | obj (fields : List (K × Tree K L))

namespace Tree

inductive Step (K : Type)
  | index (i : Nat)
  | key (k : K)

/-- The contexts of the items of an array and of the fields of an object. -/
structure Walk (C K : Type) where
  index : C → Nat → C
  key : C → K → C

variable {C K L M : Type}

/-- The context at the end of a path. -/
def Walk.along (w : Walk C K) : C → List (Step K) → C
  | c, [] => c
  | c, .index i :: p => w.along (w.index c i) p
  | c, .key k :: p => w.along (w.key c k) p

/-! ## Places -/

section Places

variable [DecidableEq K]

def field (k : K) : List (K × Tree K L) → Option (Tree K L)
  | [] => none
  | (k', t) :: fields => if k' = k then some t else field k fields

def child : Tree K L → Step K → Option (Tree K L)
  | .arr items, .index i => items[i]?
  | .obj fields, .key k => field k fields
  | _, _ => none

/-- The subtree at a path. -/
def at_ : Tree K L → List (Step K) → Option (Tree K L)
  | t, [] => some t
  | t, s :: p => (t.child s).bind fun u => u.at_ p

end Places

/-! ## Rewriting the leaves -/

section Transform

variable (w : Walk C K) (f : C → L → M)

mutual

def transform : C → Tree K L → Tree K M
  | c, .leaf l => .leaf (f c l)
  | c, .arr items => .arr (transformItems c 0 items)
  | c, .obj fields => .obj (transformFields c fields)

def transformItems : C → Nat → List (Tree K L) → List (Tree K M)
  | _, _, [] => []
  | c, i, t :: items => transform (w.index c i) t :: transformItems c (i + 1) items

def transformFields : C → List (K × Tree K L) → List (K × Tree K M)
  | _, [] => []
  | c, (k, t) :: fields => (k, transform (w.key c k) t) :: transformFields c fields

end

theorem getElem?_transformItems (c : C) (items : List (Tree K L)) (i j : Nat) :
    (transformItems w f c i items)[j]? = items[j]?.map (transform w f (w.index c (i + j))) := by
  induction items generalizing i j with
  | nil => rfl
  | cons t items ih =>
    cases j with
    | zero => rfl
    | succ j =>
      rw [transformItems, List.getElem?_cons_succ, List.getElem?_cons_succ, ih]
      congr 3
      omega

variable [DecidableEq K]

theorem field_transformFields (c : C) (fields : List (K × Tree K L)) (k : K) :
    field k (transformFields w f c fields) = (field k fields).map (transform w f (w.key c k)) := by
  induction fields with
  | nil => rfl
  | cons kv fields ih =>
    obtain ⟨k', t⟩ := kv
    rw [transformFields, field, field]
    by_cases hk : k' = k
    · rw [if_pos hk, if_pos hk, hk]
      rfl
    · rw [if_neg hk, if_neg hk, ih]

theorem child_transform (c : C) (t : Tree K L) (s : Step K) :
    (transform w f c t).child s = (t.child s).map (transform w f (w.along c [s])) := by
  cases t with
  | leaf l => cases s <;> rfl
  | arr items =>
    cases s with
    | key k => rfl
    | index i =>
      rw [transform, child, child, getElem?_transformItems, Nat.zero_add]
      rfl
  | obj fields =>
    cases s with
    | index i => rfl
    | key k => exact field_transformFields w f c fields k

/-- **A subtree of the rewritten tree is the rewritten subtree**, in the context of its place. -/
theorem at_transform (c : C) (t : Tree K L) (p : List (Step K)) :
    (transform w f c t).at_ p = (t.at_ p).map (transform w f (w.along c p)) := by
  induction p generalizing c t with
  | nil => rfl
  | cons s p ih =>
    have halong : w.along c (s :: p) = w.along (w.along c [s]) p := by cases s <;> rfl
    rw [at_, at_, child_transform, halong]
    cases t.child s with
    | none => rfl
    | some u => exact ih _ u

end Transform

/-! ## Trees that differ in leaves only -/

section Alike

variable (w : Walk C K) (R : C → L → M → Prop)

mutual

/-- The trees have the same arrays and objects, and their leaves are related as their contexts
say. -/
def Alike : C → Tree K L → Tree K M → Prop
  | c, .leaf l, .leaf m => R c l m
  | c, .arr items, .arr items' => AlikeItems c 0 items items'
  | c, .obj fields, .obj fields' => AlikeFields c fields fields'
  | _, _, _ => False

def AlikeItems : C → Nat → List (Tree K L) → List (Tree K M) → Prop
  | _, _, [], [] => True
  | c, i, t :: items, u :: items' => Alike (w.index c i) t u ∧ AlikeItems c (i + 1) items items'
  | _, _, _, _ => False

def AlikeFields : C → List (K × Tree K L) → List (K × Tree K M) → Prop
  | _, [], [] => True
  | c, (k, t) :: fields, (k', u) :: fields' =>
    k = k' ∧ Alike (w.key c k) t u ∧ AlikeFields c fields fields'
  | _, _, _ => False

end

variable {w R} {f : C → L → M}

mutual

/-- A tree is like what is made of it. -/
theorem alike_transform (hf : ∀ c l, R c l (f c l)) :
    ∀ (c : C) (t : Tree K L), Alike w R c t (transform w f c t)
  | c, .leaf l => hf c l
  | c, .arr items => alikeItems_transform hf c 0 items
  | c, .obj fields => alikeFields_transform hf c fields

theorem alikeItems_transform (hf : ∀ c l, R c l (f c l)) :
    ∀ (c : C) (i : Nat) (items : List (Tree K L)),
      AlikeItems w R c i items (transformItems w f c i items)
  | _, _, [] => trivial
  | c, i, t :: items =>
    ⟨alike_transform hf (w.index c i) t, alikeItems_transform hf c (i + 1) items⟩

theorem alikeFields_transform (hf : ∀ c l, R c l (f c l)) :
    ∀ (c : C) (fields : List (K × Tree K L)),
      AlikeFields w R c fields (transformFields w f c fields)
  | _, [] => trivial
  | c, (k, t) :: fields =>
    ⟨rfl, alike_transform hf (w.key c k) t, alikeFields_transform hf c fields⟩

end

end Alike

section Same

variable {N : Type} {w : Walk C K} {R : C → L → M → Prop} {f : C → L → N} {g : C → M → N}

mutual

/-- **Trees that are alike are made the same**, if related leaves are. -/
theorem transform_eq_of_alike (hR : ∀ c l m, R c l m → f c l = g c m) :
    ∀ (c : C) (t : Tree K L) (u : Tree K M), Alike w R c t u → transform w f c t = transform w g c u
  | c, .leaf l, .leaf m, h => by
    rw [transform, transform, hR c l m h]
  | c, .arr items, .arr items', h => by
    rw [transform, transform, transformItems_eq_of_alike hR c 0 items items' h]
  | c, .obj fields, .obj fields', h => by
    rw [transform, transform, transformFields_eq_of_alike hR c fields fields' h]

theorem transformItems_eq_of_alike (hR : ∀ c l m, R c l m → f c l = g c m) :
    ∀ (c : C) (i : Nat) (items : List (Tree K L)) (items' : List (Tree K M)),
      AlikeItems w R c i items items' → transformItems w f c i items = transformItems w g c i items'
  | _, _, [], [], _ => rfl
  | c, i, t :: items, u :: items', h => by
    rw [transformItems, transformItems, transform_eq_of_alike hR (w.index c i) t u h.1,
      transformItems_eq_of_alike hR c (i + 1) items items' h.2]

theorem transformFields_eq_of_alike (hR : ∀ c l m, R c l m → f c l = g c m) :
    ∀ (c : C) (fields : List (K × Tree K L)) (fields' : List (K × Tree K M)),
      AlikeFields w R c fields fields' → transformFields w f c fields =
        transformFields w g c fields'
  | _, [], [], _ => rfl
  | c, (k, t) :: fields, (k', u) :: fields', h => by
    obtain ⟨rfl, ht, hrest⟩ := h
    rw [transformFields, transformFields, transform_eq_of_alike hR (w.key c k) t u ht,
      transformFields_eq_of_alike hR c fields fields' hrest]

end

end Same

end Tree

end Thegn
