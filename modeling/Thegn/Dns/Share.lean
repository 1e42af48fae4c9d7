import Thegn.Dns.Question

set_option autoImplicit false

/-! # Sharing a filter

Workspaces whose policies have the same `PolicyKey` share one filter of
`thegn-core/src/dns_filter.rs`, which runs with the policy of the first of them. A key tells
everything a decision depends on: the patterns up to what `norm` makes of them
(`matchesPattern_canonical`), and whether there are allowed ones at all.
-/

namespace Thegn.Dns

open Text List

/-! ## Keys -/

structure PolicyKey where
  allow : List Text
  block : List Text
  upstream : Option SocketAddr
  deriving DecidableEq

/-- A pattern in its normal form; a malformed one in lower case. -/
def canonicalPattern (pattern : Text) : Text := (norm pattern).getD (lower pattern)

/-- Texts in the order of their bytes. -/
def byteLe (a b : Text) : Bool := decide (utf8 a ≤ utf8 b)

/-- `canonical_patterns`: sorted, and without the repetitions that then stand side by side. -/
def canonicalPatterns (patterns : List Text) : List Text :=
  ((patterns.map canonicalPattern).mergeSort byteLe).destutter (· ≠ ·)

/-- `From<&DnsPolicy>`. -/
def PolicyKey.of (policy : DnsPolicy) : PolicyKey where
  allow := canonicalPatterns policy.allow
  block := canonicalPatterns policy.block
  upstream := policy.upstream

/-! ## Filters -/

inductive Plan
  | reuse (index : Nat)
  | start
  | full
  deriving DecidableEq

def maxInstances : Nat := 16

def findOrPlan (keys : List PolicyKey) (key : PolicyKey) (cap : Nat) : Plan :=
  match keys.findIdx? (· == key) with
  | some index => .reuse index
  | none => if cap ≤ keys.length then .full else .start

/-- A running filter: its key, its port, and the policy that its server was started with. -/
structure Instance where
  key : PolicyKey
  port : UInt16
  policy : DnsPolicy

/-- `get_or_start`: the port, and the running filters afterwards. `bound` is the port of the socket
that the system would bind now, if it binds one. -/
def getOrStart (instances : List Instance) (policy : DnsPolicy) (bound : Option UInt16) :
    Option UInt16 × List Instance :=
  let key := PolicyKey.of policy
  match findOrPlan (instances.map Instance.key) key maxInstances with
  | .reuse index => (instances[index]?.map Instance.port, instances)
  | .full => (none, instances)
  | .start =>
    match bound with
    | none => (none, instances)
    | some port => (some port, instances ++ [{ key, port, policy }])

/-- The running filters after calls of `get_or_start`, from none. -/
def runningAfter (calls : List (DnsPolicy × Option UInt16)) : List Instance :=
  calls.foldl (fun instances call => (getOrStart instances call.1 call.2).2) []

/-- **The same policy**: every name is decided alike, and forwarded to the same resolver. -/
structure SamePolicy (p q : DnsPolicy) : Prop where
  allows : ∀ name, p.allows name = q.allows name
  upstream : p.upstream = q.upstream

/-! ## Normal forms -/

/-- `norm` without its last step. -/
def bare (t : Text) : Text := (stripSuffix ['.'] (trim t)).getD (trim t)

theorem trim_lower (t : Text) : trim (lower t) = lower (trim t) := by
  have hp : isWhitespace ∘ Char.toLower = isWhitespace := funext isWhitespace_toLower
  have hdrop : ∀ u : Text, (lower u).dropWhile isWhitespace = lower (u.dropWhile isWhitespace) := by
    intro u
    rw [lower, dropWhile_map, hp]
    rfl
  have hrev : ∀ u : Text, (lower u).reverse = lower u.reverse := fun u => map_reverse.symm
  rw [trim, trim, trimStart, trimStart, hdrop, trimEnd, trimEnd, trimEndMatches, trimEndMatches,
    hrev, hdrop, hrev]

theorem stripSuffix_dot_lower (t : Text) : (stripSuffix ['.'] (lower t)).getD (lower t)
    = lower ((stripSuffix ['.'] t).getD t) := by
  have hsome : ∀ u r : Text, stripSuffix ['.'] u = some r ↔ u = r ++ ['.'] := by
    intro u r
    rw [stripSuffix, List.dropSuffix?_eq_some_iff]
    constructor
    · rintro ⟨d, rfl, hd⟩
      rw [eq_of_beq hd]
    · rintro rfl
      exact ⟨['.'], rfl, by simp⟩
  cases h : stripSuffix ['.'] t with
  | some r =>
    have hl : lower t = lower r ++ ['.'] := by
      rw [(hsome t r).mp h, lower, map_append]
      rfl
    rw [(hsome _ _).mpr hl]
    rfl
  | none =>
    have hnone : stripSuffix ['.'] (lower t) = none := by
      rw [Option.eq_none_iff_forall_ne_some]
      intro r hr
      obtain ⟨a, b, rfl, ha, hb⟩ := map_eq_append_iff.mp ((hsome _ _).mp hr)
      obtain ⟨c, rfl, hc⟩ := map_eq_singleton_iff.mp hb
      rw [(toLower_eq_iff (by decide)).mp hc] at h
      rw [(hsome _ _).mpr rfl] at h
      cases h
    rw [hnone]
    rfl

/-- The normal form does not depend on ASCII case, that of a malformed text included. -/
theorem norm_lower (t : Text) : norm (lower t) = norm t := by
  have hbare : (stripSuffix ['.'] (trim (lower t))).getD (trim (lower t)) = lower (bare t) := by
    rw [trim_lower, stripSuffix_dot_lower]
    rfl
  have hsplit : (lower (bare t)).splitOn '.' = ((bare t).splitOn '.').map lower :=
    Split.splitOn_map (fun c => toLower_eq_iff (by decide)) (bare t)
  have hspace : isWhitespace ∘ Char.toLower = isWhitespace := funext isWhitespace_toLower
  have hempty : List.isEmpty ∘ lower = List.isEmpty := by
    funext l
    cases l with
    | nil => rfl
    | cons c l => rfl
  rw [norm_eq (lower t) hbare, norm_eq t rfl, hsplit, lower_lower, any_map, hempty]
  rw [lower, any_map, hspace, isEmpty_map]
  rfl

/-- What has a normal form is already its own. -/
theorem norm_of_norm {t n : Text} (h : norm t = some n) : norm n = some n := by
  obtain ⟨ms, hne, hlabels, hlower, rfl⟩ := exists_of_norm h
  rw [norm_dotted hne hlabels (.inl rfl), hlower]

/-- **Canonical patterns have the normal forms of the patterns they stand for**, malformed ones
none. -/
theorem norm_canonicalPattern (t : Text) : norm (canonicalPattern t) = norm t := by
  rw [canonicalPattern]
  cases h : norm t with
  | some n => exact norm_of_norm h
  | none => rw [Option.getD_none, norm_lower, h]

theorem matchesPattern_canonical (name : Option Text) (t : Text) :
    matchesPattern name (canonicalPattern t) = matchesPattern name t := by
  rw [matchesPattern, matchesPattern, norm_canonicalPattern]

/-! ## What a key keeps -/

theorem mem_destutter {α : Type} [DecidableEq α] {a : α} {l : List α} : a ∈ l.destutter (· ≠ ·) ↔
    a ∈ l := by
  constructor
  · exact fun h => (destutter_sublist _ l).subset h
  · cases l with
    | nil => exact id
    | cons b l =>
      rw [destutter_cons']
      intro h
      induction l generalizing b with
      | nil => exact h
      | cons c l ih =>
        by_cases hbc : b = c
        · rw [List.destutter'_cons_neg _ (by simpa using hbc)]
          apply ih
          rw [← hbc] at h
          simpa using h
        · rw [List.destutter'_cons_pos _ hbc]
          rcases mem_cons.mp h with rfl | h
          · exact .head _
          · exact mem_cons_of_mem b (ih c h)

theorem mem_canonicalPatterns {k : Text} {patterns : List Text} :
    k ∈ canonicalPatterns patterns ↔ ∃ t ∈ patterns, canonicalPattern t = k := by
  rw [canonicalPatterns, mem_destutter, mem_mergeSort, mem_map]

theorem canonicalPatterns_eq_nil {patterns : List Text} : canonicalPatterns patterns = [] ↔
    patterns = [] := by
  rw [canonicalPatterns, destutter_eq_nil]
  constructor
  · intro h
    have hlen := congrArg List.length h
    rw [length_mergeSort, length_map] at hlen
    exact length_eq_zero_iff.mp hlen
  · rintro rfl
    simp

/-- Some pattern matches if some canonical one does. -/
theorem exists_match_canonical (name : Option Text) (patterns : List Text) :
    (∃ t ∈ patterns, matchesPattern name t = true) ↔
      ∃ k ∈ canonicalPatterns patterns, matchesPattern name k = true := by
  constructor
  · rintro ⟨t, ht, hm⟩
    exact ⟨canonicalPattern t, mem_canonicalPatterns.mpr ⟨t, ht,
      rfl⟩, by rw [matchesPattern_canonical, hm]⟩
  · rintro ⟨k, hk, hm⟩
    obtain ⟨t, ht, rfl⟩ := mem_canonicalPatterns.mp hk
    exact ⟨t, ht, by rw [← matchesPattern_canonical, hm]⟩

/-- What a policy decides, read from its key. -/
theorem allows_iff_key {policy : DnsPolicy} {name : Text} :
    policy.allows name = true ↔
      (¬ ∃ k ∈ (PolicyKey.of policy).block, matchesPattern (norm name) k = true) ∧
        ((PolicyKey.of policy).allow = [] ∨
          ∃ k ∈ (PolicyKey.of policy).allow, matchesPattern (norm name) k = true) := by
  rw [allows_iff]
  show _ ↔ (¬ ∃ k ∈ canonicalPatterns policy.block, _) ∧ (canonicalPatterns policy.allow = [] ∨ _)
  rw [← exists_match_canonical, canonicalPatterns_eq_nil]
  show _ ↔ _ ∧ (_ ∨ ∃ k ∈ canonicalPatterns policy.allow, _)
  rw [← exists_match_canonical]
  simp

theorem samePolicy_of_key {p q : DnsPolicy} (h : PolicyKey.of p = PolicyKey.of q) :
    SamePolicy p q where
  allows := by
    intro name
    rw [Bool.eq_iff_iff, allows_iff_key, allows_iff_key, h]
  upstream := congrArg PolicyKey.upstream h

/-! ## Runs -/

/-- Each filter runs under the key of its policy, and there are not too many. -/
structure Running (instances : List Instance) : Prop where
  keyed : ∀ i ∈ instances, i.key = PolicyKey.of i.policy
  capped : instances.length ≤ maxInstances

theorem findOrPlan_eq_reuse {keys : List PolicyKey} {key : PolicyKey} {cap index : Nat}
    (h : findOrPlan keys key cap = .reuse index) : keys[index]? = some key := by
  unfold findOrPlan at h
  split at h
  · rename_i i hfind
    cases h
    obtain ⟨hlt, hkey, -⟩ := List.findIdx?_eq_some_iff_getElem.mp hfind
    rw [List.getElem?_eq_getElem hlt, eq_of_beq hkey]
  · split at h <;> cases h

theorem findOrPlan_eq_start {keys : List PolicyKey} {key : PolicyKey} {cap : Nat}
    (h : findOrPlan keys key cap = .start) : keys.length < cap := by
  unfold findOrPlan at h
  split at h
  · cases h
  · split at h
    · cases h
    · omega

theorem Running.reused {instances : List Instance} (h : Running instances) {policy : DnsPolicy}
    {cap index : Nat}
    (hplan : findOrPlan (instances.map Instance.key) (PolicyKey.of policy) cap = .reuse index) :
    ∃ i, instances[index]? = some i ∧ SamePolicy i.policy policy := by
  have hkey := findOrPlan_eq_reuse hplan
  rw [List.getElem?_map] at hkey
  obtain ⟨i, hi, hik⟩ := Option.map_eq_some_iff.mp hkey
  refine ⟨i, hi, samePolicy_of_key ?_⟩
  rw [← h.keyed i (mem_of_getElem? hi), hik]

theorem running_getOrStart {instances : List Instance} (h : Running instances) (policy : DnsPolicy)
    (bound : Option UInt16) : Running (getOrStart instances policy bound).2 := by
  cases hplan : findOrPlan (instances.map Instance.key) (PolicyKey.of policy) maxInstances with
  | reuse index => simpa only [getOrStart, hplan] using h
  | full => simpa only [getOrStart, hplan] using h
  | start =>
    cases bound with
    | none => simpa only [getOrStart, hplan] using h
    | some port =>
      have hlt := findOrPlan_eq_start hplan
      rw [length_map] at hlt
      simp only [getOrStart, hplan]
      refine ⟨?_, by rw [length_append]; exact hlt⟩
      intro i hi
      rcases mem_append.mp hi with hi | hi
      · exact h.keyed i hi
      · rw [mem_singleton.mp hi]

theorem running_after (calls : List (DnsPolicy × Option UInt16)) :
    Running (runningAfter calls) := by
  have hrun : ∀ instances, Running instances →
      Running (calls.foldl (fun is call => (getOrStart is call.1 call.2).2) instances) := by
    induction calls with
    | nil => exact fun instances h => h
    | cons call calls ih => exact fun instances h => ih _ (running_getOrStart h call.1 call.2)
  exact hrun [] ⟨by simp, Nat.zero_le _⟩

/-- **Sharing a filter never changes a policy**: policies with one key decide alike, a filter that
is found for a policy was started with one that decides alike, and so was the filter behind the port
that is returned. -/
theorem sharing_keeps_policies :
    (∀ p q : DnsPolicy, PolicyKey.of p = PolicyKey.of q → SamePolicy p q) ∧
    (∀ calls policy cap index,
      findOrPlan ((runningAfter calls).map Instance.key) (PolicyKey.of policy) cap = .reuse index →
        ∃ i, (runningAfter calls)[index]? = some i ∧ SamePolicy i.policy policy) ∧
    (∀ calls policy bound port, (getOrStart (runningAfter calls) policy bound).1 = some port →
      ∃ i ∈ (getOrStart (runningAfter calls) policy bound).2, i.port = port ∧
      SamePolicy i.policy policy) := by
  refine ⟨fun p q => samePolicy_of_key, fun calls policy cap index =>
    (running_after calls).reused, ?_⟩
  intro calls policy bound port hport
  have hrun := running_after calls
  cases hplan : findOrPlan ((runningAfter calls).map Instance.key) (PolicyKey.of policy)
    maxInstances with
  | reuse index =>
    obtain ⟨i, hi, hsame⟩ := hrun.reused hplan
    simp only [getOrStart, hplan, hi, Option.map_some, Option.some.injEq] at hport ⊢
    exact ⟨i, mem_of_getElem? hi, hport, hsame⟩
  | full =>
    simp only [getOrStart, hplan] at hport
    cases hport
  | start =>
    cases bound with
    | none =>
      simp only [getOrStart, hplan] at hport
      cases hport
    | some p =>
      simp only [getOrStart, hplan, Option.some.injEq] at hport ⊢
      exact ⟨_, mem_append_right _ (mem_singleton_self _), hport, samePolicy_of_key rfl⟩

def loudBlock : DnsPolicy := ⟨[], ["BLOCK.test".toList], none⟩

def quietBlock : DnsPolicy := ⟨[], ["block.test.".toList], none⟩

theorem canonicalPatterns_singleton (t : Text) : canonicalPatterns [t] = [canonicalPattern t] := by
  simp [canonicalPatterns]

theorem loudBlock_key : PolicyKey.of loudBlock = PolicyKey.of quietBlock := by
  have hpattern : canonicalPattern "BLOCK.test".toList = canonicalPattern "block.test.".toList := by
    decide
  rw [PolicyKey.of, PolicyKey.of, loudBlock, quietBlock, canonicalPatterns_singleton,
    canonicalPatterns_singleton, hpattern]

/-- The second of the two gets the port of the first. -/
theorem sharing_keeps_policies_loudBlock :
    SamePolicy loudBlock quietBlock ∧
    (∃ i, (runningAfter [(loudBlock, some 5353)])[0]? = some i ∧ SamePolicy i.policy quietBlock) ∧
    ∃ i ∈ (getOrStart (runningAfter [(loudBlock, some 5353)]) quietBlock none).2,
      i.port = 5353 ∧ SamePolicy i.policy quietBlock := by
  have hrun : runningAfter [(loudBlock, some 5353)] =
    [⟨PolicyKey.of quietBlock, 5353, loudBlock⟩] := by
    rw [← loudBlock_key]
    rfl
  have hplan (cap : Nat) : findOrPlan ((runningAfter [(loudBlock, some 5353)]).map Instance.key)
      (PolicyKey.of quietBlock) cap = .reuse 0 := by
    simp [hrun, findOrPlan]
  refine ⟨sharing_keeps_policies.1 _ _ loudBlock_key, sharing_keeps_policies.2.1 _ _ 1 0 (hplan 1),
    sharing_keeps_policies.2.2 _ _ none 5353 ?_⟩
  rw [getOrStart, hplan, hrun]
  rfl

end Thegn.Dns
