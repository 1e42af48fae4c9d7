import Thegn.Lib.Text
import Thegn.Lib.Traverse

set_option autoImplicit false

/-! # The partitions of proxied servers

`thegn-core/src/mcp/proxy/partition.rs` and `mcp/config.rs`: a server of the MCP proxy runs one
instance for each partition key, and the placeholders of its arguments and environment are expanded
from the context of the connection. The key comes from the scope of the server alone.

A template is read once into `pieces`; expanding it is filling them in (`expandPlaceholders_eq_ok`),
so two contexts expand it to the same text exactly when they agree on its placeholders.
-/

namespace Thegn.Mcp

open Text List Option

/-! ## Contexts and keys -/

inductive ProxyScope
  | global
  | workspace
  | worktree
  deriving DecidableEq

structure WorktreeContext where
  workspace : Option Text
  worktree : Option Text
  repoRoot : Option Text
  branch : Option Text
  deriving DecidableEq

/-- The placeholders a template may have. -/
inductive Placeholder
  | workspace
  | worktree
  | repoRoot
  | branch
  deriving DecidableEq

/-- The `match` of `WorktreeContext::value` and `is_known_placeholder` on the token. -/
def Placeholder.ofToken (token : Text) : Option Placeholder :=
  if token = "workspace".toList then some .workspace
  else if token = "worktree".toList then some .worktree
  else if token = "repo_root".toList then some .repoRoot
  else if token = "branch".toList then some .branch
  else none

def WorktreeContext.get (ctx : WorktreeContext) : Placeholder → Option Text
  | .workspace => ctx.workspace
  | .worktree => ctx.worktree
  | .repoRoot => ctx.repoRoot
  | .branch => ctx.branch

def WorktreeContext.value (ctx : WorktreeContext) (token : Text) : Option Text :=
  (Placeholder.ofToken token).bind ctx.get

def isKnownPlaceholder (token : Text) : Bool := (Placeholder.ofToken token).isSome

structure Withheld where
  reason : Text
  deriving DecidableEq

/-- The key of the scope `name` whose context has `value`. -/
def scopedKey (name : Text) (value : Option Text) : Except Withheld Text :=
  match value with
  | some w => .ok (name ++ ':' :: w)
  | none =>
    .error ⟨name ++ "-scoped upstream withheld: this connection is outside any registered ".toList
      ++ name ++ " (no \x7b".toList ++ name ++ "\x7d context)".toList⟩

def partitionKey (scope : ProxyScope) (ctx : WorktreeContext) : Except Withheld Text :=
  match scope with
  | .global => .ok "global".toList
  | .workspace => scopedKey "workspace".toList ctx.workspace
  | .worktree => scopedKey "worktree".toList ctx.worktree

/-! ## Placeholders

`debug` prints a template as `Debug` does. -/

section Expand

variable (debug : Text → Text)

def unterminated (template : Text) : Withheld :=
  ⟨"unterminated placeholder in ".toList ++ debug template⟩

def unbalanced (template : Text) : Withheld :=
  ⟨"unbalanced \x7d in ".toList ++ debug template ++ " (use \x7d\x7d for a literal brace)".toList⟩

/-- Why a placeholder is not expanded. -/
def unresolved (token : Text) : Withheld :=
  if isKnownPlaceholder token then
    ⟨"placeholder \x7b".toList ++ token ++ ("\x7d has no value in this connection's "
      ++ "context — upstream withheld rather than launched empty").toList⟩
  else
    ⟨"unknown placeholder \x7b".toList ++ token ++ ("\x7d (known: \x7bworkspace\x7d, "
      ++ "\x7bworktree\x7d, \x7brepo_root\x7d, \x7bbranch\x7d)").toList⟩

/-- The loop of `expand_placeholders` from a place in the template on. -/
def expandFrom (ctx : WorktreeContext) (template : Text) : Text → Except Withheld Text
  | [] => .ok []
  | '{' :: '{' :: rest => (expandFrom ctx template rest).map ('{' :: ·)
  | '}' :: '}' :: rest => (expandFrom ctx template rest).map ('}' :: ·)
  | '{' :: rest =>
    match h : splitOnceP (· == '}') rest with
    | none => .error (unterminated debug template)
    | some (token, after) =>
      match ctx.value token with
      | some v => (expandFrom ctx template after).map (v ++ ·)
      | none => .error (unresolved token)
  | '}' :: _ => .error (unbalanced debug template)
  | c :: rest => (expandFrom ctx template rest).map (c :: ·)
termination_by rest => rest.length
decreasing_by
  all_goals simp only [length_cons]
  all_goals first
    | omega
    | (obtain ⟨c, hsplit, -, -⟩ := splitOnceP_eq_some h
       rw [hsplit]
       simp only [length_append, length_cons]
       omega)

def expandPlaceholders (template : Text) (ctx : WorktreeContext) : Except Withheld Text :=
  expandFrom debug ctx template template

/-! ## Instances -/

structure McpProxyExposure where
  tools : List Text
  scope : ProxyScope

structure McpServerConfig where
  command : List Text
  args : List Text
  env : List (Text × Text)
  proxy : Option McpProxyExposure

def McpServerConfig.exposure (srv : McpServerConfig) : McpProxyExposure :=
  srv.proxy.getD ⟨[], .global⟩

structure InstanceSpec where
  upstream : Text
  partitionKey : Text
  argv : List Text
  env : List (Text × Text)
  exposure : List Text
  deriving DecidableEq

def expandSpec (name : Text) (srv : McpServerConfig) (ctx : WorktreeContext) :
    Except Withheld InstanceSpec := do
  let exposure := srv.exposure
  let key ← partitionKey exposure.scope ctx
  let argv ← (srv.command ++ srv.args).mapM (fun a => expandPlaceholders debug a ctx)
  let env ← srv.env.mapM (fun (k, v) => (expandPlaceholders debug v ctx).map (fun v => (k, v)))
  return { upstream := name, partitionKey := key, argv, env, exposure := exposure.tools }

end Expand

/-! ## Templates read into pieces -/

inductive Piece
  | char (c : Char)
  | hole (p : Placeholder)
  deriving DecidableEq

/-- A template as its characters and placeholders, if its braces balance and its placeholders are
known. -/
def pieces : Text → Option (List Piece)
  | [] => some []
  | '{' :: '{' :: rest => (pieces rest).map (.char '{' :: ·)
  | '}' :: '}' :: rest => (pieces rest).map (.char '}' :: ·)
  | '{' :: rest =>
    match h : splitOnceP (· == '}') rest with
    | none => none
    | some (token, after) =>
      match Placeholder.ofToken token with
      | some p => (pieces after).map (.hole p :: ·)
      | none => none
  | '}' :: _ => none
  | c :: rest => (pieces rest).map (.char c :: ·)
termination_by rest => rest.length
decreasing_by
  all_goals simp only [length_cons]
  all_goals first
    | omega
    | (obtain ⟨c, hsplit, -, -⟩ := splitOnceP_eq_some h
       rw [hsplit]
       simp only [length_append, length_cons]
       omega)

/-- The pieces with the values of a context, if it has them all. -/
def fill (ctx : WorktreeContext) : List Piece → Option Text
  | [] => some []
  | .char c :: ps => (fill ctx ps).map (c :: ·)
  | .hole p :: ps => (ctx.get p).bind fun v => (fill ctx ps).map (v ++ ·)

theorem toOption_map {ε α β : Type} (f : α → β) (x : Except ε α) :
    (x.map f).toOption = x.toOption.map f := by
  cases x <;> rfl

/-- A single opening brace starts a placeholder. -/
theorem pieces_hole {rest : Text} (hno : ∀ r, rest = '{' :: r → False) :
    pieces ('{' :: rest) = (splitOnceP (· == '}') rest).bind fun cut =>
      (Placeholder.ofToken cut.1).bind fun p => (pieces cut.2).map (.hole p :: ·) := by
  rw [pieces]
  · split
    · rename_i hsplit
      rw [hsplit]
      rfl
    · rename_i token after hsplit
      rw [hsplit, bind_some]
      simp only
      cases Placeholder.ofToken token <;> rfl
  · exact hno

theorem toOption_expandFrom (debug : Text → Text) (ctx : WorktreeContext) (template t : Text) :
    (expandFrom debug ctx template t).toOption = (pieces t).bind (fill ctx) := by
  fun_induction expandFrom debug ctx template t with
  | case1 =>
    rw [pieces]
    rfl
  | case2 rest ih =>
    rw [toOption_map, ih, pieces]
    cases pieces rest <;> rfl
  | case3 rest ih =>
    rw [toOption_map, ih, pieces]
    cases pieces rest <;> rfl
  | case4 rest hno hsplit =>
    rw [pieces_hole hno, hsplit]
    rfl
  | case5 rest hno token after hsplit v hv ih =>
    obtain ⟨p, hp, hget⟩ := bind_eq_some_iff.mp hv
    rw [toOption_map, ih, pieces_hole hno, hsplit, bind_some, hp, bind_some]
    cases pieces after <;> simp [fill, hget]
  | case6 rest hno token after hsplit hv =>
    rw [pieces_hole hno, hsplit, bind_some]
    cases hp : Placeholder.ofToken token with
    | none => rfl
    | some p =>
      have hget : ctx.get p = none := by
        rw [WorktreeContext.value, hp] at hv
        exact hv
      cases pieces after <;> simp [fill, hget, Except.toOption]
  | case7 rest hno =>
    rw [pieces]
    · rfl
    · exact hno
  | case8 c rest h1 h2 h3 h4 ih =>
    rw [toOption_map, ih, pieces.eq_6 c rest h1 h2 h3 h4]
    cases pieces rest <;> rfl

/-- **A template expands to its pieces filled in.** -/
theorem expandPlaceholders_eq_ok {debug : Text → Text} {ctx : WorktreeContext}
    {template out : Text} :
    expandPlaceholders debug template ctx = .ok out ↔ ∃ ps, pieces template = some ps ∧
    fill ctx ps = some out := by
  have h := toOption_expandFrom debug ctx template template
  rw [← bind_eq_some_iff, ← h, expandPlaceholders]
  cases expandFrom debug ctx template template <;> simp [Except.toOption]

/-! ## What a filled template tells of the context -/

/-- Contexts that agree on the placeholders fill them alike. -/
theorem fill_congr {ctx ctx' : WorktreeContext} {ps : List Piece}
    (h : ∀ p, .hole p ∈ ps → ctx.get p = ctx'.get p) : fill ctx ps = fill ctx' ps := by
  induction ps with
  | nil => rfl
  | cons piece ps ih =>
    have ih := ih (fun p hp => h p (.tail _ hp))
    cases piece with
    | char c => rw [fill, fill, ih]
    | hole p => rw [fill, fill, ih, h p mem_cons_self]

/-- The context with the value `v` for `p` and a fixed value elsewhere. -/
def probe (p : Placeholder) (v : Text) : WorktreeContext where
  workspace := if p = .workspace then some v else some ['w']
  worktree := if p = .worktree then some v else some ['w']
  repoRoot := if p = .repoRoot then some v else some ['w']
  branch := if p = .branch then some v else some ['w']

theorem probe_get_self (p : Placeholder) (v : Text) : (probe p v).get p = some v := by
  cases p <;> rfl

theorem probe_get_of_ne {p q : Placeholder} (h : q ≠ p) (v : Text) :
    (probe p v).get q = some ['w'] := by
  cases q <;> cases p <;> first | rfl | exact absurd rfl h

theorem probe_get_isSome (p q : Placeholder) (v : Text) : ∃ w, (probe p v).get q = some w := by
  by_cases h : q = p
  · exact ⟨v, h ▸ probe_get_self p v⟩
  · exact ⟨['w'], probe_get_of_ne h v⟩

theorem exists_fill_probe (p : Placeholder) (v : Text) (ps : List Piece) :
    ∃ out, fill (probe p v) ps = some out := by
  induction ps with
  | nil => exact ⟨[], rfl⟩
  | cons piece ps ih =>
    obtain ⟨out, hout⟩ := ih
    cases piece with
    | char c => exact ⟨c :: out, by rw [fill, hout]; rfl⟩
    | hole q =>
      obtain ⟨w, hw⟩ := probe_get_isSome p q v
      exact ⟨w ++ out, by rw [fill, hw, hout]; rfl⟩

/-- A longer value makes the text longer by one for each place of its placeholder. -/
theorem length_fill_probe {p : Placeholder} {ps : List Piece} {short long : Text}
    (hs : fill (probe p ['a']) ps = some short) (hl : fill (probe p ['a', 'a']) ps = some long) :
    long.length = short.length + ps.count (.hole p) := by
  induction ps generalizing short long with
  | nil =>
    cases hs
    cases hl
    rfl
  | cons piece ps ih =>
    cases piece with
    | char c =>
      rw [fill, map_eq_some_iff] at hs hl
      obtain ⟨short', hs, rfl⟩ := hs
      obtain ⟨long', hl, rfl⟩ := hl
      have := ih hs hl
      rw [count_cons_of_ne (by simp)]
      simp only [length_cons]
      omega
    | hole q =>
      rw [fill, bind_eq_some_iff] at hs hl
      obtain ⟨v, hv, hsv⟩ := hs
      obtain ⟨w, hw, hlw⟩ := hl
      obtain ⟨short', hs', rfl⟩ := map_eq_some_iff.mp hsv
      obtain ⟨long', hl', rfl⟩ := map_eq_some_iff.mp hlw
      have := ih hs' hl'
      simp only [length_append]
      by_cases hq : q = p
      · subst hq
        rw [probe_get_self] at hv hw
        cases hv
        cases hw
        simp only [count_cons_self, length_cons, length_nil]
        omega
      · rw [probe_get_of_ne hq] at hv hw
        cases hv
        cases hw
        rw [count_cons_of_ne (by simpa using hq)]
        omega

end Thegn.Mcp
