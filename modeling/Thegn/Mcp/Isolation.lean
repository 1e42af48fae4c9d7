import Thegn.Mcp.Reconcile

set_option autoImplicit false

/-! # Which connections share an instance

Two connections of a server share an instance when their specs have the same key. A server is
`Partitioned` when its templates have no other placeholder than the one its scope puts into the key,
or cannot be expanded at all. Exactly then the instance that a connection is served was started with
the values of that connection (`instance_of_connection`).
-/

namespace Thegn.Mcp

open Traverse Table List

/-! ## The condition -/

/-- The placeholder whose value the key of a scope holds. -/
def ProxyScope.placeholder : ProxyScope → Option Placeholder
  | .global => none
  | .workspace => some .workspace
  | .worktree => some .worktree

/-- The texts of a server in which placeholders are expanded. -/
def McpServerConfig.templates (srv : McpServerConfig) : List Text :=
  srv.command ++ srv.args ++ srv.env.map Prod.snd

/-- Every template can be expanded in some context. -/
def McpServerConfig.Expandable (srv : McpServerConfig) : Prop :=
  ∀ t ∈ srv.templates, (pieces t).isSome

/-- An expandable server has no placeholder but that of its scope. -/
def McpServerConfig.Partitioned (srv : McpServerConfig) : Prop :=
  srv.Expandable → ∀ t ∈ srv.templates, ∀ ps, pieces t = some ps → ∀ p, .hole p ∈ ps →
    srv.exposure.scope.placeholder = some p

/-! ## The spec of a connection -/

section Spec

variable {debug : Text → Text} {name : Text} {srv : McpServerConfig} {ctx ctx' : WorktreeContext}
  {s s' : InstanceSpec}

theorem expandSpec_eq_ok : expandSpec debug name srv ctx = .ok s ↔
    ∃ key argv env, partitionKey srv.exposure.scope ctx = .ok key
      ∧ (srv.command ++ srv.args).mapM (fun a => expandPlaceholders debug a ctx) = .ok argv
      ∧ srv.env.mapM (fun kv => (expandPlaceholders debug kv.2 ctx).map (fun v => (kv.1, v))) =
        .ok env
      ∧ s = { upstream := name, partitionKey := key, argv, env,
              exposure := srv.exposure.tools } := by
  have heq : expandSpec debug name srv ctx = (partitionKey srv.exposure.scope ctx).bind fun key =>
      ((srv.command ++ srv.args).mapM (fun a => expandPlaceholders debug a ctx)).bind fun argv =>
      (srv.env.mapM (fun kv => (expandPlaceholders debug kv.2 ctx).map (fun v => (kv.1, v)))).bind
        fun env =>
      .ok { upstream := name, partitionKey := key, argv, env, exposure := srv.exposure.tools } :=
        rfl
  rw [heq]
  constructor
  · intro h
    cases hkey : partitionKey srv.exposure.scope ctx with
    | error e =>
      rw [hkey] at h
      cases h
    | ok key =>
      rw [hkey] at h
      cases hargv : (srv.command ++ srv.args).mapM (fun a => expandPlaceholders debug a ctx) with
      | error e =>
        rw [hargv] at h
        cases h
      | ok argv =>
        rw [hargv] at h
        cases henv : srv.env.mapM
            (fun kv => (expandPlaceholders debug kv.2 ctx).map (fun v => (kv.1, v))) with
        | error e =>
          rw [henv] at h
          cases h
        | ok env =>
          rw [henv] at h
          cases h
          exact ⟨key, argv, env, rfl, rfl, rfl, rfl⟩
  · rintro ⟨key, argv, env, hkey, hargv, henv, rfl⟩
    rw [hkey, hargv, henv]
    rfl

theorem map_eq_ok {ε α β : Type} {f : α → β} {x : Except ε α} {b : β} :
    x.map f = .ok b ↔ ∃ a, x = .ok a ∧ f a = b := by
  cases x <;> simp [Except.map]

theorem scopedKey_eq_ok {scope : Text} {value : Option Text} {key : Text} :
    scopedKey scope value = .ok key ↔ ∃ w, value = some w ∧ key = scope ++ ':' :: w := by
  cases value with
  | none => simp [scopedKey]
  | some w => simp [scopedKey, eq_comm]

/-- A scope with a placeholder writes its value into the key. -/
theorem partitionKey_of_placeholder {scope : ProxyScope} {p : Placeholder}
    (hp : scope.placeholder = some p) : ∃ tag, ∀ ctx,
      partitionKey scope ctx = scopedKey tag (ctx.get p) := by
  cases scope with
  | global => cases hp
  | workspace =>
    cases hp
    exact ⟨_, fun _ => rfl⟩
  | worktree =>
    cases hp
    exact ⟨_, fun _ => rfl⟩

/-- The key of a scope tells the value of its placeholder. -/
theorem get_eq_of_partitionKey {scope : ProxyScope} {key : Text} {p : Placeholder}
    (h : partitionKey scope ctx = .ok key) (h' : partitionKey scope ctx' = .ok key)
    (hp : scope.placeholder = some p) : ctx.get p = ctx'.get p := by
  obtain ⟨tag, htag⟩ := partitionKey_of_placeholder hp
  rw [htag] at h h'
  obtain ⟨w, hw, rfl⟩ := scopedKey_eq_ok.mp h
  obtain ⟨w', hw', heq⟩ := scopedKey_eq_ok.mp h'
  have hvalue : w = w' := by simpa using heq
  rw [hw, hw', hvalue]

/-- The key is told by the value of the placeholder of its scope. -/
theorem partitionKey_congr {scope : ProxyScope}
    (h : ∀ p, scope.placeholder = some p → ctx.get p = ctx'.get p) :
    partitionKey scope ctx = partitionKey scope ctx' := by
  cases scope with
  | global => rfl
  | workspace => exact congrArg (scopedKey _) (h .workspace rfl)
  | worktree => exact congrArg (scopedKey _) (h .worktree rfl)

/-- Both specs can be built, so every template expands in both contexts. -/
theorem exists_expand_of_mem (h : expandSpec debug name srv ctx = .ok s) {t : Text}
    (ht : t ∈ srv.templates) : ∃ out, expandPlaceholders debug t ctx = .ok out := by
  obtain ⟨key, argv, env, -, hargv, henv, -⟩ := expandSpec_eq_ok.mp h
  rcases mem_append.mp ht with ht | ht
  · obtain ⟨out, -, hout⟩ := exists_of_mapM_eq_ok hargv ht
    exact ⟨out, hout⟩
  · obtain ⟨kv, hkv, rfl⟩ := mem_map.mp ht
    obtain ⟨out, -, hout⟩ := exists_of_mapM_eq_ok henv hkv
    obtain ⟨v, hv, -⟩ := map_eq_ok.mp hout
    exact ⟨v, hv⟩

/-- A server whose spec can be built is expandable. -/
theorem expandable_of_expandSpec (h : expandSpec debug name srv ctx = .ok s) : srv.Expandable := by
  intro t ht
  obtain ⟨out, hout⟩ := exists_expand_of_mem h ht
  obtain ⟨ps, hps, -⟩ := expandPlaceholders_eq_ok.mp hout
  rw [hps]
  rfl

/-- Connections of a partitioned server with the same key have the same spec. -/
theorem eq_of_partitioned (hsrv : srv.Partitioned) (h : expandSpec debug name srv ctx = .ok s)
    (h' : expandSpec debug name srv ctx' = .ok s') (hkey : s.key = s'.key) : s = s' := by
  have hexp := expandable_of_expandSpec h
  have hout := fun t (ht : t ∈ srv.templates) => exists_expand_of_mem h ht
  have hout' := fun t (ht : t ∈ srv.templates) => exists_expand_of_mem h' ht
  obtain ⟨key, argv, env, hk, hargv, henv, rfl⟩ := expandSpec_eq_ok.mp h
  obtain ⟨key', argv', env', hk', hargv', henv', rfl⟩ := expandSpec_eq_ok.mp h'
  have hkeys : key = key' := congrArg Prod.snd hkey
  subst hkeys
  have hsame : ∀ t ∈ srv.templates, expandPlaceholders debug t ctx =
    expandPlaceholders debug t ctx' := by
    intro t ht
    obtain ⟨out, ho⟩ := hout t ht
    obtain ⟨out', ho'⟩ := hout' t ht
    obtain ⟨ps, hps, hfill⟩ := expandPlaceholders_eq_ok.mp ho
    obtain ⟨ps', hps', hfill'⟩ := expandPlaceholders_eq_ok.mp ho'
    have hpieces : ps' = ps := Option.some.inj (hps'.symm.trans hps)
    have hagree : fill ctx ps = fill ctx' ps :=
      fill_congr fun p hp => get_eq_of_partitionKey hk hk' (hsrv hexp t ht ps hps p hp)
    rw [hpieces, ← hagree, hfill] at hfill'
    rw [ho, ho', Option.some.inj hfill']
  have hargs : argv = argv' := by
    have hcongr := mapM_congr (fun a ha => hsame a (mem_append_left _ ha))
    rw [hcongr, hargv'] at hargv
    exact (Except.ok.inj hargv).symm
  have henvs : env = env' := by
    have hcongr :
      srv.env.mapM (fun kv => (expandPlaceholders debug kv.2 ctx).map (fun v => (kv.1, v)))
        = srv.env.mapM (fun kv => (expandPlaceholders debug kv.2 ctx').map
          (fun v => (kv.1, v))) := by
      refine mapM_congr ?_
      intro kv hkv
      rw [hsame kv.2 (mem_append_right _ (mem_map_of_mem hkv))]
    rw [hcongr, henv'] at henv
    exact (Except.ok.inj henv).symm
  rw [hargs, henvs]

/-! ## Telling two connections apart -/

/-- An expandable server has a spec in every full context. -/
theorem exists_expandSpec_probe (hexp : srv.Expandable) (debug : Text → Text) (name : Text)
    (p : Placeholder) (v : Text) : ∃ s, expandSpec debug name srv (probe p v) = .ok s := by
  have hall : ∀ t ∈ srv.templates, ∃ out, expandPlaceholders debug t (probe p v) = .ok out := by
    intro t ht
    obtain ⟨ps, hps⟩ := Option.isSome_iff_exists.mp (hexp t ht)
    obtain ⟨out, hout⟩ := exists_fill_probe p v ps
    exact ⟨out, expandPlaceholders_eq_ok.mpr ⟨ps, hps, hout⟩⟩
  have hkey : ∃ key, partitionKey srv.exposure.scope (probe p v) = .ok key := by
    cases hscope : srv.exposure.scope.placeholder with
    | none =>
      cases hglobal : srv.exposure.scope with
      | global => exact ⟨_, rfl⟩
      | workspace => simp [hglobal, ProxyScope.placeholder] at hscope
      | worktree => simp [hglobal, ProxyScope.placeholder] at hscope
    | some q =>
      obtain ⟨w, hw⟩ := probe_get_isSome p q v
      obtain ⟨tag, htag⟩ := partitionKey_of_placeholder hscope
      exact ⟨_, by rw [htag]; exact scopedKey_eq_ok.mpr ⟨w, hw, rfl⟩⟩
  obtain ⟨key, hkey⟩ := hkey
  obtain ⟨argv, hargv⟩ := exists_mapM_eq_ok (fun a ha => hall a (mem_append_left _ ha))
  obtain ⟨env, henv⟩ : ∃ env, srv.env.mapM
      (fun kv => (expandPlaceholders debug kv.2 (probe p v)).map (fun v => (kv.1, v))) =
        .ok env := by
    refine exists_mapM_eq_ok ?_
    intro kv hkv
    obtain ⟨out, hout⟩ := hall kv.2 (mem_append_right _ (mem_map_of_mem hkv))
    exact ⟨(kv.1, out), by rw [hout]; rfl⟩
  exact ⟨_, expandSpec_eq_ok.mpr ⟨key, argv, env, hkey, hargv, henv, rfl⟩⟩

/-- Two specs with the same arguments and environment expanded every template alike. -/
theorem expand_eq_of_spec_eq (h : expandSpec debug name srv ctx = .ok s)
    (h' : expandSpec debug name srv ctx' = .ok s') (hargv : s.argv = s'.argv)
    (henv : s.env = s'.env)
    {t : Text} (ht : t ∈ srv.templates) : expandPlaceholders debug t ctx =
      expandPlaceholders debug t ctx' := by
  obtain ⟨out, hout⟩ := exists_expand_of_mem h ht
  obtain ⟨out', hout'⟩ := exists_expand_of_mem h' ht
  obtain ⟨key, argv, env, -, hargs, henvs, rfl⟩ := expandSpec_eq_ok.mp h
  obtain ⟨key', argv', env', -, hargs', henvs', rfl⟩ := expandSpec_eq_ok.mp h'
  cases hargv
  cases henv
  rcases mem_append.mp ht with ht | ht
  · exact eq_of_mapM_eq_ok hargs hargs' ht
  · obtain ⟨kv, hkv, rfl⟩ := mem_map.mp ht
    have heq := eq_of_mapM_eq_ok henvs henvs' hkv
    rw [hout, hout'] at heq ⊢
    simp only [Except.map, Except.ok.injEq, Prod.mk.injEq, true_and] at heq
    rw [heq]

/-- A foreign placeholder tells two connections with the same key apart. -/
theorem partitioned_of_shared (hshared : ∀ c c' s s', expandSpec debug name srv c = .ok s →
    expandSpec debug name srv c' = .ok s' → s.key = s'.key → s.argv = s'.argv ∧ s.env = s'.env) :
    srv.Partitioned := by
  intro hexp t ht ps hps p hp
  by_contra hforeign
  obtain ⟨s, hs⟩ := exists_expandSpec_probe hexp debug name p ['a']
  obtain ⟨s', hs'⟩ := exists_expandSpec_probe hexp debug name p ['a', 'a']
  have hkey : s.key = s'.key := by
    obtain ⟨key, argv, env, hk, -, -, rfl⟩ := expandSpec_eq_ok.mp hs
    obtain ⟨key', argv', env', hk', -, -, rfl⟩ := expandSpec_eq_ok.mp hs'
    rw [partitionKey_congr (fun q hq => ?_), hk'] at hk
    · cases hk
      rfl
    · have hne : q ≠ p := fun h => hforeign (h ▸ hq)
      rw [probe_get_of_ne hne, probe_get_of_ne hne]
  obtain ⟨hargv, henv⟩ := hshared _ _ _ _ hs hs' hkey
  have heq := expand_eq_of_spec_eq hs hs' hargv henv ht
  obtain ⟨short, hshort⟩ := exists_fill_probe p ['a'] ps
  obtain ⟨long, hlong⟩ := exists_fill_probe p ['a', 'a'] ps
  have hlen := length_fill_probe hshort hlong
  have hpos := count_pos_iff.mpr hp
  rw [expandPlaceholders_eq_ok.mpr ⟨ps, hps, hshort⟩, expandPlaceholders_eq_ok.mpr ⟨ps, hps, hlong⟩]
    at heq
  cases heq
  omega

end Spec

/-! ## Whole sets of connections -/

/-- The specs of the connected contexts, for every server that has one there. -/
def desired (debug : Text → Text) (servers : List (Text × McpServerConfig))
    (ctxs : List WorktreeContext) : List InstanceSpec :=
  servers.flatMap fun e => ctxs.filterMap fun ctx => (expandSpec debug e.1 e.2 ctx).toOption

def OnePerKey (specs : List InstanceSpec) : Prop :=
  ∀ s ∈ specs, ∀ s' ∈ specs, s.key = s'.key → s = s'

theorem toOption_eq_some {ε α : Type} {x : Except ε α} {a : α} : x.toOption = some a ↔
    x = .ok a := by
  cases x <;> simp [Except.toOption]

theorem mem_desired {debug : Text → Text} {servers : List (Text × McpServerConfig)}
    {ctxs : List WorktreeContext} {s : InstanceSpec} :
    s ∈ desired debug servers ctxs ↔ ∃ e ∈ servers, ∃ ctx ∈ ctxs,
      expandSpec debug e.1 e.2 ctx = .ok s := by
  simp only [desired, mem_flatMap, mem_filterMap, toOption_eq_some]

/-- What the supervisor runs for the desired specs, having run `old` before. -/
def running (old specs : List InstanceSpec) (k : Key) : Option InstanceSpec :=
  (reconcile old specs).foldl carryOut (collect old).lookup k

/-- Every spec runs as it stands exactly when no two of them differ under one key. -/
theorem running_iff (specs : List InstanceSpec) :
    (∀ old, ∀ s ∈ specs, running old specs s.key = some s) ↔ OnePerKey specs := by
  simp only [running, reconcile_reaches]
  constructor
  · intro h s hs s' hs' hkey
    have hrun := h [] s hs
    rw [hkey, h [] s' hs'] at hrun
    exact (Option.some.inj hrun).symm
  · intro h _ s hs
    obtain ⟨kept, hkept⟩ := exists_lookup_collect hs
    obtain ⟨hmem, hkey⟩ := of_lookup_collect hkept
    rw [hkept, h kept hmem s hs hkey]

theorem onePerKey_desired_iff (debug : Text → Text) {servers : List (Text × McpServerConfig)}
    (hnames : (servers.map Prod.fst).Nodup) :
    (∀ ctxs, OnePerKey (desired debug servers ctxs)) ↔ ∀ e ∈ servers, e.2.Partitioned := by
  constructor
  · intro h e he
    refine @partitioned_of_shared debug e.1 e.2 ?_
    intro c c' s s' hs hs' hkey
    have heq : s = s' := h [c, c'] s (mem_desired.mpr ⟨e, he, c, by simp, hs⟩) s'
      (mem_desired.mpr ⟨e, he, c', by simp, hs'⟩) hkey
    exact ⟨congrArg InstanceSpec.argv heq, congrArg InstanceSpec.env heq⟩
  · intro h ctxs s hs s' hs' hkey
    obtain ⟨e, he, ctx, -, hspec⟩ := mem_desired.mp hs
    obtain ⟨e', he', ctx', -, hspec'⟩ := mem_desired.mp hs'
    have hname : ∀ {e : Text × McpServerConfig} {ctx s}, expandSpec debug e.1 e.2 ctx = .ok s →
      s.key.1 = e.1 := by
      intro e ctx s hspec
      obtain ⟨key, argv, env, -, -, -, rfl⟩ := expandSpec_eq_ok.mp hspec
      rfl
    have hsame : e = e' :=
      Rows.eq_of_key hnames he he' (by rw [← hname hspec, ← hname hspec', hkey])
    subst hsame
    exact eq_of_partitioned (h e he) hspec hspec' hkey

/-- **A server shares its instances without a leak exactly when it is partitioned**: connections
with one key have the same arguments and environment; the desired specs have one for each key; and
what runs at the key of a connection, whatever ran before, is the spec of that connection. -/
theorem instance_of_connection (debug : Text → Text) :
    (∀ name srv, (∀ c c' s s', expandSpec debug name srv c = .ok s →
      expandSpec debug name srv c' = .ok s' →
        s.key = s'.key → s.argv = s'.argv ∧ s.env = s'.env) ↔ srv.Partitioned) ∧
    ∀ servers : List (Text × McpServerConfig), (servers.map Prod.fst).Nodup →
      ((∀ ctxs, OnePerKey (desired debug servers ctxs)) ↔ ∀ e ∈ servers, e.2.Partitioned) ∧
      ((∀ ctxs old, ∀ s ∈ desired debug servers ctxs,
          running old (desired debug servers ctxs) s.key = some s) ↔
          ∀ e ∈ servers, e.2.Partitioned) := by
  constructor
  · intro name srv
    constructor
    · exact partitioned_of_shared
    · intro hsrv c c' s s' hs hs' hkey
      have heq := eq_of_partitioned hsrv hs hs' hkey
      exact ⟨congrArg InstanceSpec.argv heq, congrArg InstanceSpec.env heq⟩
  · intro servers hnames
    refine ⟨onePerKey_desired_iff debug hnames, ?_⟩
    rw [← onePerKey_desired_iff debug hnames]
    exact forall_congr' fun ctxs => running_iff _

/-- Text without braces stands for itself. -/
theorem pieces_plain {t : Text} (h : ∀ c ∈ t, c ≠ '{' ∧ c ≠ '}') :
    pieces t = some (t.map .char) := by
  induction t with
  | nil => rw [pieces, map_nil]
  | cons c t ih =>
    obtain ⟨ho, hc⟩ := h c (.head _)
    rw [pieces.eq_6 c t (fun _ h _ => ho h) (fun _ h _ => hc h) ho hc,
      ih (fun c hc => h c (.tail _ hc))]
    rfl

/-- A template that is one placeholder. -/
theorem pieces_token {t : Text} {p : Placeholder} (hp : Placeholder.ofToken t = some p)
    (h : ∀ c ∈ t, c ≠ '{' ∧ c ≠ '}') : pieces ('{' :: t ++ ['}']) = some [.hole p] := by
  have hno : ∀ r, t ++ ['}'] = '{' :: r → False := by
    intro r hr
    cases t with
    | nil => cases hr
    | cons c t => exact (h c (.head _)).1 (cons.inj hr).1
  have hsplit : Text.splitOnceP (· == '}') (t ++ ['}']) = some (t, []) :=
    Text.splitOnceP_append (by simpa using fun c hc => (h c hc).2) (by decide)
  rw [cons_append, pieces_hole hno, hsplit, Option.bind_some, hp, Option.bind_some, pieces]
  rfl

/-- A server for each workspace that is given its name. -/
def perWorkspace : McpServerConfig where
  command := ["mem".toList]
  args := ['{' :: "workspace".toList ++ ['}']]
  env := []
  proxy := some ⟨["*".toList], .workspace⟩

theorem perWorkspace_partitioned : perWorkspace.Partitioned := by
  intro _ t ht ps hps p hp
  rcases mem_cons.mp ht with rfl | ht
  · rw [pieces_plain (by simp)] at hps
    cases hps
    simp at hp
  · rw [mem_singleton.mp ht, pieces_token (p := .workspace) (by decide) (by simp)] at hps
    cases hps
    cases mem_singleton.mp hp
    rfl

theorem instance_of_connection_sample :
    OnePerKey (desired id [("mem".toList, perWorkspace)]
      [⟨some ['v'], none, none, none⟩, ⟨some ['w'], none, none, none⟩]) :=
  ((instance_of_connection id).2 [("mem".toList, perWorkspace)] (by simp)).1.mpr
    (fun _ he => mem_singleton.mp he ▸ perWorkspace_partitioned) _

/-! ## A shared instance that leaks -/

/-- A server for all connections that is given the branch of the first. -/
def leaking : McpServerConfig where
  command := ["mem".toList]
  args := ['{' :: "branch".toList ++ ['}']]
  env := []
  proxy := some ⟨["*".toList], .global⟩

def onBranch (branch : Text) : WorktreeContext := ⟨some ['w'], some ['t'], some ['/'], some branch⟩

theorem expandSpec_leaking (branch : Text) :
    expandSpec id "mem".toList leaking (onBranch branch) =
      .ok ⟨"mem".toList, "global".toList, ["mem".toList, branch], [], ["*".toList]⟩ := by
  have hplain : expandPlaceholders id "mem".toList (onBranch branch) = .ok "mem".toList :=
    expandPlaceholders_eq_ok.mpr ⟨_, pieces_plain (by simp), rfl⟩
  have hbranch : expandPlaceholders id ('{' :: "branch".toList ++ ['}']) (onBranch branch) =
    .ok branch := by
    exact expandPlaceholders_eq_ok.mpr ⟨_, pieces_token (p := .branch) (by decide) (by simp),
      by simp [fill, WorktreeContext.get, onBranch]⟩
  refine expandSpec_eq_ok.mpr ⟨_, _, _, rfl, mapM_eq_ok.mpr (.cons hplain (.cons hbranch .nil)),
    rfl, rfl⟩

theorem global_instance_leaks :
    ∃ s s', expandSpec id "mem".toList leaking (onBranch ['a']) = .ok s ∧
      expandSpec id "mem".toList leaking (onBranch ['b']) = .ok s' ∧ s.key = s'.key ∧
      s.argv ≠ s'.argv :=
  ⟨_, _, expandSpec_leaking ['a'], expandSpec_leaking ['b'], rfl, by simp⟩

end Thegn.Mcp
