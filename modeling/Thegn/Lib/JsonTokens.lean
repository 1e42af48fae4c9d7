import Thegn.Lib.Json

set_option autoImplicit false

/-! # JSON texts as tokens

`tokens` cuts a text into its string literals and the characters outside them, and `parseText` reads
a document from these tokens; the literal of a number is kept as it is written. The value of a text
depends on its tokens only, and these stay when the characters of the text are written in another
way that a string literal allows (`tokens_flatMap`).
-/

namespace Thegn

open List Option

namespace Json

open Text

/-! ## Tokens -/

/-- A string literal, or a character outside them. -/
inductive Token
  | str (s : Text)
  | sym (c : Char)
  deriving DecidableEq

def tokensFuel : Nat → Text → Option (List Token)
  | _, [] => some []
  | 0, _ => none
  | n + 1, '"' :: rest => do
      let (s, rest) ← parseString (rest.length + 1) rest
      let toks ← tokensFuel n rest
      some (.str s :: toks)
  | n + 1, c :: rest => do
      let toks ← tokensFuel n rest
      some (.sym c :: toks)

/-- The tokens of a text; a literal that is not closed or has a bad escape is refused. -/
def tokens (t : Text) : Option (List Token) := tokensFuel t.length t

/-! ## Documents -/

/-- A value, with its numbers as they are written. -/
inductive Document
  | null
  | bool (b : Bool)
  | number (literal : Text)
  | str (s : Text)
  | arr (items : List Document)
  | obj (fields : List (Text × Document))

/-- Digits, at least one. -/
def isDigits (t : Text) : Bool := !t.isEmpty && t.all Char.isDigit

def isExponent (t : Text) : Bool :=
  match t with
  | '+' :: t => isDigits t
  | '-' :: t => isDigits t
  | t => isDigits t

/-- An integer, a fraction and an exponent. -/
def isNumber (t : Text) : Bool :=
  let t := (stripPrefix ['-'] t).getD t
  let whole := t.takeWhile Char.isDigit
  let t := t.dropWhile Char.isDigit
  let digits := match t with
    | '.' :: t => t.takeWhile Char.isDigit
    | _ => ['0']
  let t := match t with
    | '.' :: t => t.dropWhile Char.isDigit
    | t => t
  isDigits whole && (whole.head? != some '0' || whole == ['0']) && isDigits digits &&
    match t with
    | [] => true
    | 'e' :: t => isExponent t
    | 'E' :: t => isExponent t
    | _ => false

def inNumber (c : Char) : Bool :=
  c.isDigit || c == '-' || c == '+' || c == '.' || c == 'e' || c == 'E'

/-- The characters of a number at the start. -/
def takeNumber : List Token → Text × List Token
  | .sym c :: toks =>
    if inNumber c then
      let (literal, toks) := takeNumber toks
      (c :: literal, toks)
    else ([], .sym c :: toks)
  | toks => ([], toks)

def skipWsTokens : List Token → List Token
  | .sym c :: toks => if isWs c then skipWsTokens toks else .sym c :: toks
  | toks => toks

mutual

def documentOf : Nat → List Token → Option (Document × List Token)
  | 0, _ => none
  | n + 1, toks =>
    match skipWsTokens toks with
    | .str s :: toks => some (.str s, toks)
    | .sym 'n' :: .sym 'u' :: .sym 'l' :: .sym 'l' :: toks => some (.null, toks)
    | .sym 't' :: .sym 'r' :: .sym 'u' :: .sym 'e' :: toks => some (.bool true, toks)
    | .sym 'f' :: .sym 'a' :: .sym 'l' :: .sym 's' :: .sym 'e' :: toks => some (.bool false, toks)
    | .sym '[' :: toks =>
      match skipWsTokens toks with
      | .sym ']' :: toks => some (.arr [], toks)
      | toks => (itemsOf n toks).map fun r => (.arr r.1, r.2)
    | .sym '{' :: toks =>
      match skipWsTokens toks with
      | .sym '}' :: toks => some (.obj [], toks)
      | toks => (fieldsOf n toks).map fun r => (.obj r.1, r.2)
    | toks =>
      let (literal, toks) := takeNumber toks
      if isNumber literal then some (.number literal, toks) else none

def itemsOf : Nat → List Token → Option (List Document × List Token)
  | 0, _ => none
  | n + 1, toks => do
      let (v, toks) ← documentOf n toks
      match skipWsTokens toks with
      | .sym ',' :: toks =>
        let (vs, toks) ← itemsOf n toks
        some (v :: vs, toks)
      | .sym ']' :: toks => some ([v], toks)
      | _ => none

def fieldsOf : Nat → List Token → Option (List (Text × Document) × List Token)
  | 0, _ => none
  | n + 1, toks =>
    match skipWsTokens toks with
    | .str k :: toks =>
      match skipWsTokens toks with
      | .sym ':' :: toks => do
          let (v, toks) ← documentOf n toks
          match skipWsTokens toks with
          | .sym ',' :: toks =>
            let (fs, toks) ← fieldsOf n toks
            some ((k, v) :: fs, toks)
          | .sym '}' :: toks => some ([(k, v)], toks)
          | _ => none
      | _ => none
    | _ => none

end

/-- The document of a list of tokens, with a call for each of them. -/
def document (toks : List Token) : Option Document :=
  match documentOf (toks.length + 1) toks with
  | some (v, rest) => if skipWsTokens rest = [] then some v else none
  | none => none

/-- The document of a text. -/
def parseText (t : Text) : Option Document := (tokens t).bind document

/-! ## Code units -/

/-- A unit outside the surrogates is a character. -/
theorem parseUnit_basic {t rest : Text} {u : Nat} (h : takeHex t = some (u, rest))
    (hhigh : ¬ (0xd800 ≤ u ∧ u < 0xdc00))
    (hlow : ¬ (0xdc00 ≤ u ∧ u < 0xe000)) : parseUnit t = some (Char.ofNat u, rest) := by
  rw [parseUnit, h]
  simp only [bind_eq_bind, bind_some, if_neg hhigh, if_neg hlow]

/-- A pair of surrogates is one. -/
theorem parseUnit_pair {t t' rest : Text} {u l : Nat} (h : takeHex t = some (u, '\\' :: 'u' :: t'))
    (h' : takeHex t' = some (l, rest)) (hhigh : 0xd800 ≤ u ∧ u < 0xdc00)
    (hlow : 0xdc00 ≤ l ∧ l < 0xe000) :
    parseUnit t = some (Char.ofNat (0x10000 + (u - 0xd800) * 0x400 + (l - 0xdc00)), rest) := by
  rw [parseUnit, h]
  simp only [bind_eq_bind, bind_some, if_pos hhigh, h', if_pos hlow]

/-! ## Other ways to write a character -/

/-- The characters of the syntax: what a literal has outside its escapes is no concern of these. -/
def Printable (c : Char) : Prop := 32 ≤ c.toNat ∧ c.toNat < 127

instance : DecidablePred Printable :=
  fun c => inferInstanceAs (Decidable (32 ≤ c.toNat ∧ c.toNat < 127))

/-- `f` writes each character of a string literal so that it is read as before, and keeps the
syntax. -/
structure Rewriting (f : Char → Text) : Prop where
  keeps : ∀ c, Printable c → f c = [c]
  reads : ∀ c rest, 32 ≤ c.toNat → c ≠ '\\' → parseChar (f c ++ rest) = some (c, rest)
  opens : ∀ c, c ≠ '"' → ∃ d r, f c = d :: r ∧ d ≠ '"'

variable {f : Char → Text}

theorem Rewriting.length_pos (h : Rewriting f) (c : Char) : 0 < (f c).length := by
  by_cases hc : c = '"'
  · rw [hc, h.keeps '"' (by decide)]
    exact Nat.one_pos
  · obtain ⟨d, r, hd, -⟩ := h.opens c hc
    rw [hd]
    exact Nat.succ_pos _

theorem Rewriting.flatMap_cons (h : Rewriting f) {c : Char} (hc : Printable c) (t : Text) :
    (c :: t).flatMap f = c :: t.flatMap f := by
  rw [List.flatMap_cons, h.keeps c hc]
  rfl

theorem printable_of_hexValue {c : Char} {v : Nat} (h : hexValue c = some v) : Printable c := by
  unfold hexValue at h
  split_ifs at h with hdigit hlower hupper
  · obtain ⟨hge, hle⟩ := Char.isDigit_iff_toNat.mp hdigit
    have hge' : 48 ≤ c.toNat := hge
    have hle' : c.toNat ≤ 57 := hle
    exact ⟨by omega, by omega⟩
  · obtain ⟨hge, hle⟩ := hlower
    have hge' : 97 ≤ c.toNat := hge
    have hle' : c.toNat ≤ 102 := hle
    exact ⟨by omega, by omega⟩
  · obtain ⟨hge, hle⟩ := hupper
    have hge' : 65 ≤ c.toNat := hge
    have hle' : c.toNat ≤ 70 := hle
    exact ⟨by omega, by omega⟩

theorem takeHex_flatMap (h : Rewriting f) {t rest : Text} {u : Nat}
    (ht : takeHex t = some (u, rest)) : takeHex (t.flatMap f) = some (u, rest.flatMap f) := by
  unfold takeHex at ht
  split at ht
  · rename_i a b c d rest'
    simp only [bind_eq_bind, bind_eq_some_iff] at ht
    obtain ⟨va, ha, vb, hb, vc, hc, vd, hd, heq⟩ := ht
    cases heq
    rw [h.flatMap_cons (printable_of_hexValue ha), h.flatMap_cons (printable_of_hexValue hb),
      h.flatMap_cons (printable_of_hexValue hc), h.flatMap_cons (printable_of_hexValue hd), takeHex]
    simp only [bind_eq_bind, ha, hb, hc, hd, bind_some]
  · cases ht

theorem takeHex_suffix {t rest : Text} {u : Nat} (ht : takeHex t = some (u, rest)) :
    rest <:+ t := by
  unfold takeHex at ht
  split at ht
  · rename_i a b c d rest'
    simp only [bind_eq_bind, bind_eq_some_iff] at ht
    obtain ⟨va, ha, vb, hb, vc, hc, vd, hd, heq⟩ := ht
    cases heq
    exact suffix_append [a, b, c, d] rest
  · cases ht

theorem parseUnit_flatMap (h : Rewriting f) {t rest : Text} {c : Char}
    (ht : parseUnit t = some (c, rest)) : parseUnit (t.flatMap f) = some (c, rest.flatMap f) := by
  unfold parseUnit at ht ⊢
  simp only [bind_eq_bind, bind_eq_some_iff] at ht
  obtain ⟨⟨u, rest1⟩, hhex, hrest⟩ := ht
  dsimp only at hrest
  rw [takeHex_flatMap h hhex]
  simp only [bind_eq_bind, bind_some]
  split_ifs at hrest ⊢ with hhigh hlow
  · split at hrest
    · rename_i rest2
      rw [h.flatMap_cons (c := '\\') (by decide), h.flatMap_cons (c := 'u') (by decide)]
      simp only [bind_eq_some_iff] at hrest
      obtain ⟨⟨l, rest3⟩, hhex', hrest⟩ := hrest
      simp only [takeHex_flatMap h hhex', bind_some]
      split_ifs at hrest ⊢
      obtain ⟨rfl, rfl⟩ := Prod.mk.inj (Option.some.inj hrest)
      rfl
    · cases hrest
  · cases hrest
    rfl

theorem parseUnit_suffix {t rest : Text} {c : Char} (ht : parseUnit t = some (c, rest)) :
    rest <:+ t := by
  unfold parseUnit at ht
  simp only [bind_eq_bind, bind_eq_some_iff] at ht
  obtain ⟨⟨u, rest1⟩, hhex, hrest⟩ := ht
  dsimp only at hrest
  refine List.IsSuffix.trans ?_ (takeHex_suffix hhex)
  split_ifs at hrest
  · split at hrest
    · rename_i rest2
      simp only [bind_eq_some_iff] at hrest
      obtain ⟨⟨l, rest3⟩, hhex', hrest⟩ := hrest
      split_ifs at hrest
      obtain ⟨rfl, rfl⟩ := Prod.mk.inj (Option.some.inj hrest)
      have hsuffix := takeHex_suffix hhex'
      exact hsuffix.trans (suffix_append ['\\', 'u'] rest2)
    · cases hrest
  · cases hrest
    exact suffix_rfl

theorem printable_of_escapeOf {e c : Char} (h : escapeOf e = some c) : Printable e := by
  unfold escapeOf at h
  split at h <;> first | decide | cases h

theorem parseChar_flatMap (h : Rewriting f) {t rest : Text} {c : Char}
    (ht : parseChar t = some (c, rest)) : parseChar (t.flatMap f) = some (c, rest.flatMap f) := by
  unfold parseChar at ht
  split at ht
  · cases ht
  · rename_i t
    rw [h.flatMap_cons (c := '\\') (by decide), h.flatMap_cons (c := 'u') (by decide)]
    exact parseUnit_flatMap h ht
  · rename_i e t hu
    obtain ⟨d, he, heq⟩ := map_eq_some_iff.mp ht
    cases heq
    rw [h.flatMap_cons (c := '\\') (by decide), h.flatMap_cons (printable_of_escapeOf he)]
    unfold parseChar
    split
    · rename_i heq
      cases heq
    · rename_i heq
      exact absurd (List.cons.inj (List.cons.inj heq).2).1 (hu ·)
    · rename_i heq
      cases heq
      rw [he]
      rfl
    · rename_i hne heq
      cases heq
      exact (hne _ _ rfl rfl).elim
  · rename_i d t hu he
    split_ifs at ht with hbad
    rw [not_or, Nat.not_lt] at hbad
    cases ht
    rw [List.flatMap_cons]
    exact h.reads c _ hbad.1 hbad.2

theorem parseChar_suffix {t rest : Text} {c : Char} (ht : parseChar t = some (c, rest)) :
    ∃ d t', t = d :: t' ∧ rest <:+ t' := by
  unfold parseChar at ht
  split at ht
  · cases ht
  · rename_i t
    exact ⟨'\\', _, rfl, (parseUnit_suffix ht).trans (suffix_cons 'u' t)⟩
  · rename_i e t hu
    obtain ⟨d, he, heq⟩ := map_eq_some_iff.mp ht
    cases heq
    exact ⟨'\\', _, rfl, suffix_cons e _⟩
  · split_ifs at ht with hbad
    cases ht
    exact ⟨_, _, rfl, suffix_rfl⟩

theorem Rewriting.length_lt (h : Rewriting f) {d : Char} {t rest : Text} (hrest : rest <:+ t) :
    (rest.flatMap f).length < ((d :: t).flatMap f).length := by
  obtain ⟨pre, rfl⟩ := hrest
  have hpos := h.length_pos d
  rw [List.flatMap_cons, flatMap_append, length_append, length_append]
  omega

/-- A literal is read as before, with a call for each of its characters. -/
theorem parseString_flatMap_eq (h : Rewriting f) {n : Nat} : ∀ {m : Nat} {t rest s : Text},
    parseString n t = some (s, rest) → (t.flatMap f).length < m →
      parseString m (t.flatMap f) = some (s, rest.flatMap f) ∧ ∃ d t', t = d :: t' ∧
      rest <:+ t' := by
  induction n with
  | zero =>
    intro m t rest s ht _
    cases ht
  | succ n ih =>
    intro m t rest s ht hm
    obtain ⟨m, rfl⟩ := Nat.exists_eq_succ_of_ne_zero (Nat.ne_of_gt (Nat.zero_lt_of_lt hm))
    by_cases hquote : ∃ t', t = '"' :: t'
    · obtain ⟨t', rfl⟩ := hquote
      rw [parseString] at ht
      cases ht
      rw [h.flatMap_cons (by decide)]
      exact ⟨rfl, '"', _, rfl, suffix_rfl⟩
    · rw [parseString] at ht
      · simp only [bind_eq_bind, bind_eq_some_iff] at ht
        obtain ⟨⟨c, t1⟩, hchar, ⟨s1, t2⟩, hstring, heq⟩ := ht
        obtain ⟨rfl, rfl⟩ := Prod.mk.inj (Option.some.inj heq)
        obtain ⟨d, t', rfl, hsuffix⟩ := parseChar_suffix hchar
        have hlt := h.length_lt (d := d) hsuffix
        obtain ⟨hread, d', t'', heq', hsuffix'⟩ :=
          ih hstring (Nat.lt_of_lt_of_le hlt (Nat.le_of_lt_succ hm))
        have hd : d ≠ '"' := fun heq => hquote ⟨t', by rw [heq]⟩
        obtain ⟨x, r, hx, hne⟩ := h.opens d hd
        refine ⟨?_, d, t', rfl, ?_⟩
        · have hchar' := parseChar_flatMap h hchar
          rw [List.flatMap_cons, hx, cons_append] at hchar' ⊢
          rw [parseString]
          · simp only [hchar', hread, bind_eq_bind, bind_some]
          · intro r' heq
            exact hne (List.cons.inj heq).1
        · have hstep : t'' <:+ t1 := ⟨[d'], heq'.symm⟩
          exact (hsuffix'.trans hstep).trans hsuffix
      · intro t' heq
        exact hquote ⟨t', heq⟩

/-- **The tokens of a text stay** when its characters are written in another way. -/
theorem tokensFuel_flatMap (h : Rewriting f) {n : Nat} : ∀ {m : Nat} {t : Text} {toks : List Token},
    tokensFuel n t = some toks → (∀ c, .sym c ∈ toks → f c = [c]) → (t.flatMap f).length ≤ m →
      tokensFuel m (t.flatMap f) = some toks := by
  induction n with
  | zero =>
    intro m t toks ht _ _
    cases t with
    | nil =>
      rw [tokensFuel] at ht
      rw [flatMap_nil, tokensFuel]
      exact ht
    | cons c t => cases ht
  | succ n ih =>
    intro m t toks ht hsym hm
    cases t with
    | nil =>
      rw [tokensFuel] at ht
      rw [flatMap_nil, tokensFuel]
      exact ht
    | cons c t =>
      have hpos : 0 < ((c :: t).flatMap f).length :=
        Nat.zero_lt_of_lt (h.length_lt (d := c) suffix_rfl)
      obtain ⟨m, rfl⟩ := Nat.exists_eq_succ_of_ne_zero (Nat.ne_of_gt (Nat.lt_of_lt_of_le hpos hm))
      by_cases hquote : c = '"'
      · subst hquote
        rw [tokensFuel] at ht
        simp only [bind_eq_bind, bind_eq_some_iff] at ht
        obtain ⟨⟨s, rest⟩, hstring, toks', htoks, heq⟩ := ht
        cases heq
        rw [h.flatMap_cons (by decide), length_cons] at hm
        obtain ⟨hread, d, t', rfl, hsuffix⟩ :=
          parseString_flatMap_eq h hstring (Nat.lt_succ_self (t.flatMap f).length)
        have hlt := h.length_lt (d := d) hsuffix
        have hrest := ih htoks (fun c hc => hsym c (.tail _ hc))
          (Nat.le_trans (Nat.le_of_lt hlt) (Nat.le_of_succ_le_succ hm))
        rw [h.flatMap_cons (by decide), tokensFuel]
        simp only [hread, hrest, bind_eq_bind, bind_some]
      · rw [tokensFuel] at ht
        · simp only [bind_eq_bind, bind_eq_some_iff] at ht
          obtain ⟨toks', htoks, heq⟩ := ht
          cases heq
          have hc := hsym c (.head _)
          rw [List.flatMap_cons, hc, singleton_append, length_cons] at hm
          have hrest := ih htoks (fun c hc => hsym c (.tail _ hc)) (Nat.le_of_succ_le_succ hm)
          rw [List.flatMap_cons, hc, singleton_append, tokensFuel]
          · simp only [hrest, bind_eq_bind, bind_some]
          · exact hquote
        · exact hquote

theorem tokens_flatMap (h : Rewriting f) {t : Text} {toks : List Token} (ht : tokens t = some toks)
    (hsym : ∀ c, .sym c ∈ toks → f c = [c]) : tokens (t.flatMap f) = some toks :=
  tokensFuel_flatMap h ht hsym le_rfl

end Json

end Thegn
