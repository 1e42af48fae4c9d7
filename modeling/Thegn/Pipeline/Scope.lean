import Thegn.Lib.Utf8

set_option autoImplicit false

/-! # Chunk scopes

The file scopes of `thegn-core/src/pipeline_chunk.rs`: canonical file patterns, matching a path
against a pattern (`globMatch`), comparing two patterns (`patternsIntersect`), and the decision
whether a new chunk may run beside the active ones (`verdict`).

The two comparing loops take nodes from a stack (its top is the head of the list) and charge each
new node to a budget; the budget is also what makes them terminate. A counter that the source
changes through `&mut` is returned with the result.
-/

namespace Thegn.Pipeline

open Text

/-! ## Canonical patterns -/

def maxPatterns : Nat := 64
def maxPatternBytes : Nat := 256
def maxSegments : Nat := 32
def maxPairMatchWork : Nat := 100000
def maxTotalMatchWork : Nat := 50000000

/-- The segment `**`. -/
def doubleStar : Text := "**".toList

def windowsReservedComponent (segment : Text) : Bool :=
  let base := (segment.splitOn '.').headD segment
  ["CON".toList, "PRN".toList, "AUX".toList, "NUL".toList].any (eqIgnoreAsciiCase base)
    || ["COM".toList, "LPT".toList].any fun p =>
        (List.range' 1 9).any fun digit => eqIgnoreAsciiCase base (p ++ ofNat digit)

/-- The segment is refused. -/
def badSegment (s : Text) : Bool :=
  s.isEmpty || s == ".".toList || s == "..".toList
    || (contains s doubleStar && s != doubleStar)
    || s.getLast? == some '.' || s.getLast? == some ' '
    || (utf8 s).any (fun b => b == 63 || b == 60 || b == 62 || b == 34 || b == 124)
    || windowsReservedComponent s

/-- The normalized spelling of a repository-relative path or pattern, if it is supported. -/
def canonicalRepoRelativePath (path : Text) : Option Text :=
  if byteLen path > maxPatternBytes then none
  else
    let normalized := (stripPrefix "./".toList path).getD path
    let segments := normalized.splitOn '/'
    if normalized.isEmpty || decide (segments.length > maxSegments)
        || !(utf8 normalized).all (· < 128)
        || startsWith normalized ['/'] || decide ('\\' ∈ normalized) || decide (':' ∈ normalized)
        || (utf8 normalized).any (fun b => b < 32 || b == 127)
        || segments.any badSegment then none
    else some normalized

def canonicalPattern (p : Text) : Bool := canonicalRepoRelativePath p == some p

/-! ## Matching a path -/

/-- The loop of `match_segment`. `star` is the place of the last `*` met and `mark` how far it has
run in `t`. -/
def matchSegmentLoop (p t : Text) (pi ti : Nat) (star : Option Nat) (mark : Nat)
    (h : mark ≤ ti) : Bool :=
  if hti : ti < t.length then
    if p[pi]? = some '*' then matchSegmentLoop p t (pi + 1) ti (some pi) ti (Nat.le_refl ti)
    else if p[pi]? = some t[ti] then matchSegmentLoop p t (pi + 1) (ti + 1) star mark
      (Nat.le_succ_of_le h)
    else
      match star with
      -- the last `*` swallows one more character
      | some sp => matchSegmentLoop p t (sp + 1) (mark + 1) star (mark + 1) le_rfl
      | none => false
  else (p.drop pi).all (· == '*')
termination_by (t.length - mark, t.length - ti, p.length - pi)
decreasing_by
  · have hpi := (List.getElem?_eq_some_iff.mp ‹p[pi]? = some '*'›).1
    rcases Nat.lt_or_eq_of_le h with hlt | heq
    · exact Prod.Lex.left _ _ (by omega)
    · rw [heq]
      exact Prod.Lex.right _ (Prod.Lex.right _ (by omega))
  · exact Prod.Lex.right _ (Prod.Lex.left _ _ (by omega))
  · exact Prod.Lex.left _ _ (by omega)

def matchSegment (pat seg : Text) : Bool := matchSegmentLoop pat seg 0 0 none 0 (Nat.le_refl 0)

/-- What `match_segments` remembers: results by position, and the work done. -/
structure Memo where
  results : List ((Nat × Nat) × Bool)
  work : Nat

def Memo.tick (memo : Memo) : Memo := { memo with work := memo.work + 1 }

/-- Note the result at a position. -/
def remember (i j : Nat) (r : Bool × Memo) : Bool × Memo :=
  (r.1, { r.2 with results := ((i, j), r.1) :: r.2.results })

/-- `go` of `match_segments`; `p` and `s` are the segments from `i` and `j` on. -/
def matchSegmentsFrom (p s : List Text) (i j : Nat) (memo : Memo) : Bool × Memo :=
  match memo.results.lookup (i, j) with
  | some result => (result, memo)
  | none =>
    if memo.work ≥ maxPairMatchWork then (false, memo)
    else
      match p, s with
      | [], s => remember i j (s.isEmpty, memo.tick)
      | pat :: p, [] =>
        if pat = doubleStar then remember i j (matchSegmentsFrom p [] (i + 1) j memo.tick)
        else remember i j (false, memo.tick)
      | pat :: p, seg :: s =>
        if pat = doubleStar then
          let r := matchSegmentsFrom p (seg :: s) (i + 1) j memo.tick
          if r.1 then remember i j r
          else remember i j (matchSegmentsFrom (pat :: p) s i (j + 1) r.2)
        else if matchSegment pat seg then
          remember i j (matchSegmentsFrom p s (i + 1) (j + 1) memo.tick)
        else remember i j (false, memo.tick)
termination_by p.length + s.length
decreasing_by
  all_goals simp only [List.length_cons]
  all_goals omega

def matchSegments (p s : List Text) : Bool :=
  (matchSegmentsFrom p s 0 0 { results := [], work := 0 }).1

/-- Does `path` match `pattern`? -/
def globMatch (pattern path : Text) : Bool :=
  if byteLen pattern > maxPatternBytes ∨ byteLen path > maxPatternBytes * maxSegments
      ∨ canonicalPattern pattern = false ∨ (path.splitOn '/').length > maxSegments then false
  else matchSegments (pattern.splitOn '/') (path.splitOn '/')

/-! ## Comparing two patterns -/

inductive MatchError
  | overBudget
  | unsupportedPattern
  deriving DecidableEq, Repr

/-- The two counters: for this pair of patterns, and for the whole decision. -/
structure Work where
  pair : Nat
  total : Nat
  deriving DecidableEq, Repr

def chargeMatchWork (w : Work) : Except MatchError Work :=
  let w : Work := { pair := w.pair + 1, total := w.total + 1 }
  if w.pair > maxPairMatchWork ∨ w.total > maxTotalMatchWork then .error .overBudget else .ok w

theorem chargeMatchWork_ok {w w' : Work} (h : chargeMatchWork w = .ok w') :
    w' = { pair := w.pair + 1, total := w.total + 1 } ∧ w.pair < maxPairMatchWork := by
  unfold chargeMatchWork at h
  dsimp only at h
  split_ifs at h with hover
  cases h
  simp only [not_or, not_lt] at hover
  exact ⟨rfl, hover.1⟩

/-- The byte `*`. -/
def starByte : UInt8 := 42

/-- The nodes `segment_intersects` pushes at a node, in order. -/
def segmentEdges (a b : List UInt8) (i j : Nat) : List (Nat × Nat) :=
  (if a[i]? = some starByte then [(i + 1, j)] else [])
    ++ (if b[j]? = some starByte then [(i, j + 1)] else [])
    ++ match a[i]?, b[j]? with
      | some x, some y =>
        if x = starByte ∧ y = starByte then [(i, j)]
        else if x = starByte then [(i, j + 1)]
        else if y = starByte then [(i + 1, j)]
        else if x = y then [(i + 1, j + 1)]
        else []
      | _, _ => []

/-- The loop of `segment_intersects`. -/
def segmentLoop (a b : List UInt8) (pending : List (Nat × Nat)) (seen : Finset (Nat × Nat))
    (w : Work) : Except MatchError (Bool × Work) :=
  match pending with
  | [] => .ok (false, w)
  | (i, j) :: rest =>
    if (i, j) ∈ seen then segmentLoop a b rest seen w
    else
      match hw : chargeMatchWork w with
      | .error e => .error e
      | .ok w' =>
        if i = a.length ∧ j = b.length then .ok (true, w')
        else
          segmentLoop a b ((segmentEdges a b i j).reverse ++ rest) (insert (i, j) seen) w'
termination_by (maxPairMatchWork - w.pair, pending.length)
decreasing_by
  · exact Prod.Lex.right _ (by simp)
  · obtain ⟨rfl, hlt⟩ := chargeMatchWork_ok hw
    exact Prod.Lex.left _ _ (by simp only; omega)

def asciiLower (b : UInt8) : UInt8 := if 65 ≤ b ∧ b ≤ 90 then b + 32 else b

/-- Do two segment patterns have a segment in common, up to ASCII case? -/
def segmentIntersects (a b : Text) (w : Work) : Except MatchError (Bool × Work) :=
  segmentLoop ((utf8 a).map asciiLower) ((utf8 b).map asciiLower) [(0, 0)] ∅ w

theorem segmentLoop_pair_le (a b : List UInt8) (pending : List (Nat × Nat))
    (seen : Finset (Nat × Nat)) (w : Work) {r : Bool} {w' : Work}
    (h : segmentLoop a b pending seen w = .ok (r, w')) : w.pair ≤ w'.pair := by
  fun_induction segmentLoop a b pending seen w with
  | case1 => cases h; exact le_rfl
  | case2 _ _ _ _ _ _ ih => exact ih h
  | case3 => cases h
  | case4 seen w i j rest _ w1 hw _ =>
    cases h
    obtain ⟨rfl, -⟩ := chargeMatchWork_ok hw
    exact Nat.le_succ _
  | case5 seen w i j rest _ w1 hw _ ih =>
    obtain ⟨rfl, -⟩ := chargeMatchWork_ok hw
    exact Nat.le_trans (Nat.le_succ _) (ih h)

/-- The nodes `patterns_intersect` pushes at a node where one side has a `**` or is at its end. -/
def patternEdges (a b : List Text) (i j : Nat) : List (Nat × Nat) :=
  (if a[i]? = some doubleStar then [(i + 1, j)] else [])
    ++ (if b[j]? = some doubleStar then [(i, j + 1)] else [])
    ++ (if i < a.length ∧ j < b.length then
          if a[i]? = some doubleStar ∧ b[j]? = some doubleStar then [(i, j)]
          else if a[i]? = some doubleStar then [(i, j + 1)]
          else if b[j]? = some doubleStar then [(i + 1, j)]
          else []
        else [])

/-- The segments at a node, where both are there and neither is `**`. -/
def literalPair (a b : List Text) (i j : Nat) : Option (Text × Text) :=
  match a[i]?, b[j]? with
  | some x, some y => if x ≠ doubleStar ∧ y ≠ doubleStar then some (x, y) else none
  | _, _ => none

/-- The loop of `patterns_intersect`. -/
def patternLoop (a b : List Text) (pending : List (Nat × Nat)) (seen : Finset (Nat × Nat))
    (w : Work) : Except MatchError (Bool × Work) :=
  match pending with
  | [] => .ok (false, w)
  | (i, j) :: rest =>
    if (i, j) ∈ seen then patternLoop a b rest seen w
    else
      match hw : chargeMatchWork w with
      | .error e => .error e
      | .ok w' =>
        match literalPair a b i j with
        | some (x, y) =>
          match hs : segmentIntersects x y w' with
          | .error e => .error e
          | .ok (hit, w'') =>
            patternLoop a b (if hit then (i + 1, j + 1) :: rest else rest) (insert (i, j) seen) w''
        | none =>
          if i = a.length ∧ j = b.length then .ok (true, w')
          else
            patternLoop a b ((patternEdges a b i j).reverse ++ rest) (insert (i, j) seen) w'
termination_by (maxPairMatchWork - w.pair, pending.length)
decreasing_by
  · exact Prod.Lex.right _ (by simp)
  · obtain ⟨rfl, hlt⟩ := chargeMatchWork_ok hw
    have hle := segmentLoop_pair_le _ _ _ _ _ hs
    simp only at hle
    exact Prod.Lex.left _ _ (by omega)
  · obtain ⟨rfl, hlt⟩ := chargeMatchWork_ok hw
    exact Prod.Lex.left _ _ (by simp only; omega)

/-- Do two patterns have a path in common, up to ASCII case? The counter of the whole decision
comes in and goes out. -/
def patternsIntersect (a b : Text) (totalWork : Nat) : Except MatchError (Bool × Nat) :=
  if canonicalPattern a = false ∨ canonicalPattern b = false then .error .unsupportedPattern
  else
    (patternLoop (a.splitOn '/') (b.splitOn '/') [(0, 0)] ∅ { pair := 0, total := totalWork }).map
      fun r => (r.1, r.2.total)

/-! ## Scopes -/

/-- What a chunk declares. -/
structure ChunkScope where
  files : List Text
  overlaps : List Text
  after : List Text
  deriving DecidableEq

/-- An active sibling's recorded scope. -/
structure ActiveScope where
  row : Int
  name : Text
  files : List Text
  deriving DecidableEq

/-- One row of the double loop of `paths_overlap_with_work`. -/
def overlapRow (pa : Text) : List Text → Nat → Except MatchError (List (Text × Text) × Nat)
  | [], work => .ok ([], work)
  | pb :: b, work =>
    if byteLen pa > maxPatternBytes ∨ byteLen pb > maxPatternBytes then .error .overBudget
    else do
      let (hit, work) ← patternsIntersect pa pb work
      let (pairs, work) ← overlapRow pa b work
      return (if hit then (pa, pb) :: pairs else pairs, work)

def overlapRows : List Text → List Text → Nat → Except MatchError (List (Text × Text) × Nat)
  | [], _, work => .ok ([], work)
  | pa :: a, b, work => do
      let (pairs, work) ← overlapRow pa b work
      let (rest, work) ← overlapRows a b work
      return (pairs ++ rest, work)

/-- The colliding pairs of two scopes. -/
def pathsOverlapWithWork (a b : List Text) (work : Nat) :
    Except MatchError (List (Text × Text) × Nat) :=
  if a.length > maxPatterns ∨ b.length > maxPatterns then .error .overBudget
  else overlapRows a b work

/-- The `after:` entries that are not done, each once. -/
def afterUnmet (after : List Text) (done : Finset Text) : List Text :=
  after.foldl (fun unmet name => if name ∉ done ∧ name ∉ unmet then unmet ++ [name] else unmet) []

inductive ScopeVerdict
  | ok
  | conflict (overlaps : List (Nat × List (Text × Text)))
  | unmetAfter (unmet : List Text)
  | unknown (error : MatchError)
  deriving DecidableEq

/-- The conflicts with the siblings from index `i` on. -/
def conflicts (new : ChunkScope) :
    List ActiveScope → Nat → Nat → Except MatchError (List (Nat × List (Text × Text)))
  | [], _, _ => .ok []
  | sib :: active, i, work =>
    if sib.name ∈ new.overlaps then conflicts new active (i + 1) work
    else do
      let (pairs, work) ← pathsOverlapWithWork new.files sib.files work
      let rest ← conflicts new active (i + 1) work
      return if pairs.isEmpty then rest else (i, pairs) :: rest

/-- **May `new` run beside the active siblings?** -/
def verdict (new : ChunkScope) (active : List ActiveScope) (done : Finset Text) : ScopeVerdict :=
  match conflicts new active 0 0 with
  | .error e => .unknown e
  | .ok (c :: cs) => .conflict (c :: cs)
  | .ok [] =>
    match afterUnmet new.after done with
    | [] => .ok
    | unmet => .unmetAfter unmet

end Thegn.Pipeline
