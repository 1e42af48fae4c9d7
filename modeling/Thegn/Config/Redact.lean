import Thegn.Lib.Tree
import Thegn.Lib.Text

set_option autoImplicit false

/-! # Redacting configuration trees

`thegn-core/src/redact.rs`: strings that are secrets are masked in a tree of configuration values.
Whether a string is one depends on the nearest key above it and on its path from the root. A subtree
can be redacted with the path to it, which does not say that the nearest key is sensitive.
-/

namespace Thegn.Config

open Text List

/-! ## What is sensitive -/

def placeholder : Text := "***redacted***".toList

def sensitive : List Text :=
  ["token".toList, "api_key".toList, "apikey".toList, "secret".toList, "password".toList,
    "passwd".toList, "credential".toList, "private_key".toList, "auth_user_pass".toList]

def notSecret : List Text := ["project_key".toList, "binary_cache_key".toList]

/-- `str::ends_with`. -/
def endsWith (s p : Text) : Bool := p.isSuffixOf s

def isSensitive (key : Text) : Bool :=
  let k := key.map Char.toLower
  if endsWith k "_env".toList || notSecret.contains k then false
  else sensitive.any (fun s => Text.contains k s) || endsWith k "_key".toList

def isNumber (segment : Text) : Bool := !segment.isEmpty && segment.all Char.isDigit

/-- The fields of a calendar account that hold credentials. -/
def isSensitiveField : List Text → Bool
  | [field] => field == "url".toList || field == "username".toList
  | [field, index] =>
    field == "env".toList || (field == "command".toList && isNumber index && index.any (· != '0'))
  | _ => false

def isSensitivePath : List Text → Bool
  | calendar :: accounts :: index :: field =>
    calendar == "calendar".toList && accounts == "accounts".toList && isNumber index &&
      isSensitiveField field
  | _ => false

/-! ## Redaction -/

/-- The leaves of a value; nothing looks into a number. -/
inductive Scalar (N : Type)
  | null
  | bool (b : Bool)
  | num (n : N)
  | str (s : Text)

/-- A JSON value. -/
abbrev Value (N : Type) := Tree Text (Scalar N)

abbrev Step := Tree.Step Text

/-- The path of a value, and whether a string there is masked whatever its path is. -/
abbrev Context := List Text × Bool

/-- Keys and indices are pushed onto the path; a key decides anew what is masked, an index does
not. -/
def walk : Tree.Walk Context Text where
  index c i := (c.1 ++ [ofNat i], c.2)
  key c k := (c.1 ++ [k], isSensitive k)

variable {N : Type}

def mask (c : Context) : Scalar N → Scalar N
  | .str s => if c.2 || isSensitivePath c.1 then .str placeholder else .str s
  | other => other

def redactJsonAtInner (path : List Text) (v : Value N) (masked : Bool) : Value N :=
  v.transform walk mask (path, masked)

def redactJsonAt (pref : List Text) (v : Value N) : Value N := redactJsonAtInner pref v false

def redactJson (v : Value N) : Value N := redactJsonAt [] v

/-! ## Places -/

def segment : Step → Text
  | .index i => ofNat i
  | .key k => k

/-- Whether the nearest key on the path, above any number of arrays, is sensitive. -/
def underSensitiveKey (p : List Step) : Bool := (walk.along ([], false) p).2

/-- A string that only a sensitive key above the value keeps from showing: it is reached through
arrays alone, and its own path is not sensitive. -/
inductive Exposed : List Text → Value N → Prop
  | str {path : List Text} {s : Text} : isSensitivePath path = false → s ≠ placeholder →
      Exposed path (.leaf (.str s))
  | item {path : List Text} {items : List (Value N)} {i : Nat} {v : Value N} :
      items[i]? = some v → Exposed (path ++ [ofNat i]) v → Exposed path (.arr items)

/-- What redaction may change: a string. -/
def StringsOnly (_ : Context) (l m : Scalar N) : Prop := l = m ∨ ∃ s t, l = .str s ∧ m = .str t

/-- Where two trees may differ without being told apart: in strings that are secret. -/
def SecretsOnly (c : Context) (l m : Scalar N) : Prop :=
  l = m ∨ (c.2 = true ∨ isSensitivePath c.1 = true) ∧ ∃ s t, l = .str s ∧ m = .str t

theorem along_path (c : Context) (p : List Step) : (walk.along c p).1 = c.1 ++ p.map segment := by
  induction p generalizing c with
  | nil => simp [Tree.Walk.along]
  | cons s p ih =>
    cases s with
    | index i =>
      rw [Tree.Walk.along, ih, map_cons, segment, append_cons]
      rfl
    | key k =>
      rw [Tree.Walk.along, ih, map_cons, segment, append_cons]
      rfl

theorem mask_idem (c : Context) (l : Scalar N) : mask c (mask c l) = mask c l := by
  cases l with
  | str s =>
    by_cases h : (c.2 || isSensitivePath c.1) = true
    · simp [mask, h]
    · simp [mask, h]
  | null => rfl
  | bool b => rfl
  | num n => rfl

theorem stringsOnly_mask (c : Context) (l : Scalar N) : StringsOnly c l (mask c l) := by
  cases l with
  | str s =>
    by_cases h : (c.2 || isSensitivePath c.1) = true
    · exact .inr ⟨s, placeholder, rfl, by simp [mask, h]⟩
    · exact .inl (by simp [mask, h])
  | null => exact .inl rfl
  | bool b => exact .inl rfl
  | num n => exact .inl rfl

theorem mask_eq_of_secretsOnly (c : Context) (l m : Scalar N) (h : SecretsOnly c l m) :
    mask c l = mask c m := by
  rcases h with rfl | ⟨hc, s, t, rfl, rfl⟩
  · rfl
  · have hmask : (c.2 || isSensitivePath c.1) = true := by rcases hc with hc | hc <;> simp [hc]
    simp [mask, hmask]

/-! ## What the nearest key decides -/

theorem mask_eq_iff (path : List Text) (l : Scalar N) :
    mask (path, false) l = mask (path, true) l ↔ ¬ Exposed path (.leaf l) := by
  cases l with
  | str s =>
    have hiff : Exposed (N := N) path (.leaf (.str s)) ↔
      isSensitivePath path = false ∧ s ≠ placeholder := by
      constructor
      · rintro ⟨hpath, hs⟩
        exact ⟨hpath, hs⟩
      · rintro ⟨hpath, hs⟩
        exact .str hpath hs
    rw [hiff]
    by_cases hpath : isSensitivePath path = true
    · simp [mask, hpath]
    · simp [mask, hpath]
  | null => exact iff_of_true rfl (fun h => by cases h)
  | bool b => exact iff_of_true rfl (fun h => by cases h)
  | num n => exact iff_of_true rfl (fun h => by cases h)

mutual

/-- Whether a value is redacted the same whatever the nearest key above it is. -/
theorem transform_eq_iff : ∀ (path : List Text) (v : Value N),
    v.transform walk mask (path, false) = v.transform walk mask (path, true) ↔ ¬ Exposed path v
  | path, .leaf l => by
    rw [Tree.transform, Tree.transform, Tree.leaf.injEq, mask_eq_iff]
  | path, .arr items => by
    rw [Tree.transform, Tree.transform, Tree.arr.injEq, transformItems_eq_iff path 0 items]
    constructor
    · intro h hexposed
      cases hexposed with
      | item hitem hv => exact h _ _ hitem (by rwa [Nat.zero_add])
    · intro h i v hitem hexposed
      rw [Nat.zero_add] at hexposed
      exact h (.item hitem hexposed)
  | path, .obj fields => by
    -- the keys of the object decide anew
    refine iff_of_true ?_ (fun h => by cases h)
    rw [Tree.transform, Tree.transform, transformFields_eq path fields]

theorem transformItems_eq_iff : ∀ (path : List Text) (i : Nat) (items : List (Value N)),
    Tree.transformItems walk mask (path, false) i items =
      Tree.transformItems walk mask (path, true) i items ↔
      ∀ (j : Nat) (v : Value N), items[j]? = some v → ¬ Exposed (path ++ [ofNat (i + j)]) v
  | path, i, [] => by simp [Tree.transformItems]
  | path, i, v :: items => by
    rw [Tree.transformItems, Tree.transformItems, List.cons.injEq,
      transformItems_eq_iff path (i + 1) items]
    have hhead := transform_eq_iff (path ++ [ofNat i]) v
    constructor
    · rintro ⟨hv, hrest⟩ j w hj
      cases j with
      | zero =>
        cases hj
        exact hhead.mp hv
      | succ j =>
        have hnext := hrest j w hj
        rwa [Nat.add_assoc, Nat.add_comm 1 j] at hnext
    · intro h
      refine ⟨hhead.mpr (h 0 v rfl), ?_⟩
      intro j w hj
      have hnext := h (j + 1) w hj
      rwa [Nat.add_assoc, Nat.add_comm 1 j]

theorem transformFields_eq : ∀ (path : List Text) (fields : List (Text × Value N)),
    Tree.transformFields walk mask (path, false) fields =
      Tree.transformFields walk mask (path, true) fields
  | _, [] => rfl
  | path, (k, v) :: fields => by
    rw [Tree.transformFields, Tree.transformFields, transformFields_eq path fields]
    rfl

end

/-- **A subtree is redacted as in the whole tree** exactly when the nearest key above it is not
sensitive, or hides nothing. Redaction changes strings only, is idempotent, and does not tell
secrets apart. -/
theorem redact_subtree_iff (N : Type) :
    (∀ (v : Value N) (p : List Step) (sub : Value N), v.at_ p = some sub →
      ((redactJson v).at_ p = some (redactJsonAt (p.map segment) sub) ↔
        (underSensitiveKey p = true → ¬ Exposed (p.map segment) sub))) ∧
    (∀ v : Value N, redactJson (redactJson v) = redactJson v) ∧
    (∀ v : Value N, Tree.Alike walk StringsOnly ([], false) v (redactJson v)) ∧
    (∀ v w : Value N, Tree.Alike walk SecretsOnly ([], false) v w →
      redactJson v = redactJson w) := by
  refine ⟨?_, ?_, ?_, ?_⟩
  · intro v p sub hsub
    have hplace : walk.along ([], false) p = (p.map segment, underSensitiveKey p) :=
      Prod.ext (along_path ([], false) p) rfl
    have hwhole : (redactJson v).at_ p =
      some (sub.transform walk mask (p.map segment, underSensitiveKey p)) := by
      rw [redactJson, redactJsonAt, redactJsonAtInner, Tree.at_transform, hsub, hplace]
      rfl
    rw [hwhole, Option.some.injEq, eq_comm, redactJsonAt, redactJsonAtInner]
    cases underSensitiveKey p with
    | false => simp
    | true =>
      rw [transform_eq_iff]
      simp
  · intro v
    have hsame : ∀ (c : Context) (l m : Scalar N), mask c l = m → mask c l = mask c m := by
      rintro c l m rfl
      exact (mask_idem c l).symm
    exact (Tree.transform_eq_of_alike hsame _ _ _ (Tree.alike_transform (fun c l => rfl) _ v)).symm
  · intro v
    exact Tree.alike_transform stringsOnly_mask _ v
  · intro v w h
    exact Tree.transform_eq_of_alike mask_eq_of_secretsOnly _ v w h

/-! ## A list under a key -/

def listUnder (k : Text) : Value Unit := .obj [(k, .arr [.leaf (.str ['x']), .leaf .null])]

theorem listUnder_at (k : Text) :
    (listUnder k).at_ [.key k, .index 0] = some (.leaf (.str ['x'])) ∧
      (listUnder k).at_ [.key k, .index 1] = some (.leaf .null) := by
  simp [listUnder, Tree.at_, Tree.child, Tree.field]

theorem listUnder_redacted {k : Text} (hk : isSensitive k = true) :
    (redactJson (listUnder k)).at_ [.key k, .index 0] = some (.leaf (.str placeholder)) := by
  simp [redactJson, redactJsonAt, redactJsonAtInner, listUnder, Tree.transform,
    Tree.transformFields, Tree.transformItems, Tree.at_, Tree.child, Tree.field, walk, mask, hk]

/-- A string of the list is masked in the tree, and not by itself. -/
theorem token_shown_alone :
    (listUnder "api_keys".toList).at_ [.key "api_keys".toList, .index 0] =
      some (.leaf (.str ['x'])) ∧
    (redactJson (listUnder "api_keys".toList)).at_ [.key "api_keys".toList, .index 0]
      ≠ some (redactJsonAt ["api_keys".toList, ofNat 0] (.leaf (.str ['x']))) := by
  have hshown (k : Text) : redactJsonAt [k, ofNat 0] (.leaf (.str ['x'])) =
    (.leaf (.str ['x']) : Value Unit) := rfl
  refine ⟨(listUnder_at _).1, ?_⟩
  rw [listUnder_redacted (by decide), hshown]
  intro h
  cases h

/-- A string of a list under another key stays as it is, in the tree and by itself. -/
theorem redact_subtree_string :
    (redactJson (listUnder "names".toList)).at_ [.key "names".toList, .index 0]
      = some (redactJsonAt ["names".toList, ofNat 0] (.leaf (.str ['x']))) :=
  ((redact_subtree_iff Unit).1 (listUnder "names".toList) [.key "names".toList, .index 0] _
    (listUnder_at _).1).mpr fun h => absurd h (by decide)

end Thegn.Config
