import Thegn.Pipeline.Intersect
import Thegn.Pipeline.Glob
import Thegn.Lib.Run

set_option autoImplicit false

/-! # Admitting chunks

Chunks are admitted when `verdict` says so and leave when they are completed. In every state of
such a run two active chunks have no path in common, up to ASCII case, unless the one admitted
later lists the other in its `overlaps` (`chunk_scopes_exact`).
-/

namespace Thegn.Pipeline

open Text Run List

/-! ## What a verdict means -/

/-- No pair of patterns of the two scopes has a path in common. -/
def Apart (as bs : List Text) : Prop := ∀ a ∈ as, ∀ b ∈ bs, ¬ Common a b

theorem overlapRow_nil {pa : Text} {b : List Text} {work work' : Nat}
    (h : overlapRow pa b work = .ok ([], work')) : ∀ pb ∈ b, ¬ Common pa pb := by
  induction b generalizing work work' with
  | nil => simp
  | cons pb b ih =>
    rw [overlapRow] at h
    split_ifs at h
    cases hi : patternsIntersect pa pb work with
    | error e =>
      rw [hi] at h
      cases h
    | ok r =>
      obtain ⟨hit, work1⟩ := r
      cases hr : overlapRow pa b work1 with
      | error e =>
        rw [hi] at h
        simp only [bind, Except.bind, hr] at h
        cases h
      | ok r =>
        obtain ⟨pairs, work2⟩ := r
        rw [hi] at h
        simp only [bind, Except.bind, hr, pure, Except.pure, Except.ok.injEq, Prod.mk.injEq] at h
        obtain ⟨hpairs, rfl⟩ := h
        cases hit with
        | true => simp at hpairs
        | false =>
          simp only [Bool.false_eq_true, if_false] at hpairs
          subst hpairs
          intro x hx
          rcases mem_cons.mp hx with rfl | hx
          · intro hcommon
            cases (patternsIntersect_spec hi).mpr hcommon
          · exact ih hr x hx

theorem overlapRows_nil {a b : List Text} {work work' : Nat}
    (h : overlapRows a b work = .ok ([], work')) : Apart a b := by
  induction a generalizing work work' with
  | nil =>
    intro x hx
    cases hx
  | cons pa a ih =>
    rw [overlapRows] at h
    cases hr : overlapRow pa b work with
    | error e =>
      rw [hr] at h
      cases h
    | ok r =>
      obtain ⟨pairs, work1⟩ := r
      cases hrs : overlapRows a b work1 with
      | error e =>
        rw [hr] at h
        simp only [bind, Except.bind, hrs] at h
        cases h
      | ok r =>
        obtain ⟨rest, work2⟩ := r
        rw [hr] at h
        simp only [bind, Except.bind, hrs, pure, Except.pure, Except.ok.injEq, Prod.mk.injEq,
          append_eq_nil_iff] at h
        obtain ⟨⟨rfl, rfl⟩, rfl⟩ := h
        intro x hx y hy
        rcases mem_cons.mp hx with rfl | hx
        · exact overlapRow_nil hr y hy
        · exact ih hrs x hx y hy

theorem conflicts_nil {new : ChunkScope} {active : List ActiveScope} {i work : Nat}
    (h : conflicts new active i work = .ok []) :
    ∀ sib ∈ active, sib.name ∈ new.overlaps ∨ Apart new.files sib.files := by
  induction active generalizing i work with
  | nil => simp
  | cons sib active ih =>
    rw [conflicts] at h
    split_ifs at h with hblessed
    · intro x hx
      rcases mem_cons.mp hx with rfl | hx
      · exact .inl hblessed
      · exact ih h x hx
    · cases hp : pathsOverlapWithWork new.files sib.files work with
      | error e =>
        rw [hp] at h
        cases h
      | ok r =>
        obtain ⟨pairs, work1⟩ := r
        cases hc : conflicts new active (i + 1) work1 with
        | error e =>
          rw [hp] at h
          simp only [bind, Except.bind, hc] at h
          cases h
        | ok rest =>
          rw [hp] at h
          simp only [bind, Except.bind, hc, pure, Except.pure, Except.ok.injEq] at h
          split_ifs at h with hempty
          subst h
          rw [List.isEmpty_iff.mp hempty] at hp
          intro x hx
          rcases mem_cons.mp hx with rfl | hx
          · unfold pathsOverlapWithWork at hp
            split_ifs at hp
            exact .inr (overlapRows_nil hp)
          · exact ih hc x hx

theorem verdict_ok {new : ChunkScope} {active : List ActiveScope} {done : Finset Text}
    (h : verdict new active done = .ok) :
    ∀ sib ∈ active, sib.name ∈ new.overlaps ∨ Apart new.files sib.files := by
  unfold verdict at h
  split at h
  · cases h
  · cases h
  · rename_i hc
    exact conflicts_nil hc

/-! ## Runs -/

/-- A chunk that was admitted. -/
structure Chunk where
  row : Int
  name : Text
  scope : ChunkScope
  deriving DecidableEq

/-- What the gate is told of an active chunk. -/
def Chunk.activeScope (c : Chunk) : ActiveScope :=
  { row := c.row, name := c.name, files := c.scope.files }

/-- The path is in the scope of the chunk. -/
def Chunk.Owns (c : Chunk) (path : Text) : Prop := ∃ p ∈ c.scope.files, globMatch p path = true

inductive ChunkMove
  /-- The gate is asked, with the active chunks in some order and the names that are done. -/
  | activate (chunk : Chunk) (siblings : List ActiveScope) (done : Finset Text)
  /-- The chunks of this row are completed. -/
  | complete (row : Int)

/-- The active chunks, oldest first. -/
def chunkStep (active : List Chunk) : ChunkMove → Option (List Chunk)
  | .activate chunk siblings done =>
    if siblings.Perm (active.map Chunk.activeScope) ∧ verdict chunk.scope siblings done = .ok then
      some (active ++ [chunk])
    else none
  | .complete row => some (active.filter fun c => c.row ≠ row)

/-- The chunk admitted later lists the earlier one, or they own no path in common. -/
def Compatible (earlier later : Chunk) : Prop :=
  earlier.name ∈ later.scope.overlaps ∨ ∀ path, ¬ (earlier.Owns path ∧ later.Owns path)

theorem compatible_of_apart {earlier later : Chunk}
    (h : Apart later.scope.files earlier.scope.files) : Compatible earlier later := by
  right
  rintro path ⟨⟨p, hp, hpm⟩, q, hq, hqm⟩
  exact h q hq p hp ⟨utf8 path, globMatch_sound hqm, utf8 path, globMatch_sound hpm, rfl⟩

theorem chunkStep_compatible {active active' : List Chunk} {m : ChunkMove}
    (hinv : active.Pairwise Compatible) (h : chunkStep active m = some active') :
    active'.Pairwise Compatible := by
  cases m with
  | activate chunk siblings done =>
    simp only [chunkStep] at h
    split_ifs at h with hok
    cases h
    rw [pairwise_append]
    refine ⟨hinv, pairwise_singleton _ _, ?_⟩
    intro c hc d hd
    rw [mem_singleton.mp hd]
    have hmem : c.activeScope ∈ siblings := hok.1.mem_iff.mpr (mem_map_of_mem hc)
    rcases verdict_ok hok.2 _ hmem with hblessed | hapart
    · exact .inl hblessed
    · exact compatible_of_apart hapart
  | complete row =>
    cases h
    exact hinv.sublist filter_sublist

/-- **Chunk scopes are checked exactly.** Two canonical patterns are compared within the budget, and
the answer is whether some path is in both languages up to ASCII case. Hence in every run two active
chunks own no path in common, unless the one admitted later lists the earlier one in `overlaps`. -/
theorem chunk_scopes_exact :
    (∀ a b : Text, canonicalPattern a = true → canonicalPattern b = true →
      ∃ r total, patternsIntersect a b 0 = .ok (r, total) ∧ (r = true ↔ Common a b))
    ∧ ∀ (moves : List ChunkMove) (active : List Chunk), run chunkStep [] moves = some active →
        active.Pairwise Compatible := by
  constructor
  · intro a b ha hb
    obtain ⟨r, total, h⟩ := patternsIntersect_ok ha hb (Nat.zero_le _)
    exact ⟨r, total, h, patternsIntersect_spec h⟩
  · intro moves active h
    exact run_induction (fun _ _ _ hinv hm => chunkStep_compatible hinv hm) .nil h

/-! Two patterns with a path in common, and two chunks that share a file with the architect's
blessing. -/

def rustFiles : Text := "src/**/*.rs".toList

def upperCaseFile : Text := "SRC/a/b.RS".toList

def firstChunk : Chunk :=
  { row := 1, name := "chunk-1".toList
    scope := { files := [rustFiles], overlaps := [], after := [] } }

def secondChunk : Chunk :=
  { row := 2, name := "chunk-2".toList
    scope := { files := [upperCaseFile], overlaps := ["chunk-1".toList], after := [] } }

theorem chunk_scopes_exact_sample :
    (∃ r total, patternsIntersect rustFiles upperCaseFile 0 = .ok (r, total)
      ∧ (r = true ↔ Common rustFiles upperCaseFile))
    ∧ [firstChunk, secondChunk].Pairwise Compatible :=
  ⟨chunk_scopes_exact.1 rustFiles upperCaseFile (by decide) (by decide +kernel),
    chunk_scopes_exact.2 [.activate firstChunk [] ∅,
      .activate secondChunk [firstChunk.activeScope] ∅] _
      (by decide)⟩

end Thegn.Pipeline
