import Thegn.Lib.Splice
import Thegn.Rebase.Todo

set_option autoImplicit false

/-! # Reordering a rebase todo

`move_entry` and `place_fixup` of `thegn-core/src/rebase_todo.rs`. A move looks past the lines that
are neither commits nor structural for the next commit in its direction and exchanges the two
(`moveEntry_spec`). So it is an adjacent transposition of the commits, between two structural lines,
and the move back undoes it (`reorder_safe`).
-/

namespace Thegn.Rebase

open Text List
open Splice (exchange_perm)

/-! ## The commands -/

def TodoAction.isCommit : TodoAction → Bool
  | .pick | .reword | .edit | .squash | .fixup | .fixupC | .drop => true
  | _ => false

/-- Lines whose order encodes the topology of a rebase with merges. -/
def TodoAction.isStructural : TodoAction → Bool
  | .label _ | .reset _ | .merge _ | .updateRef _ | .unknown _ => true
  | _ => false

inductive TodoError
  | shaNotFound (sha : Text)
  | cannotMove (why : String)
  deriving DecidableEq

/-- One sha is an abbreviation of the other; the empty text matches nothing. -/
def shaMatches (a b : Text) : Bool := !a.isEmpty && !b.isEmpty && (startsWith a b || startsWith b a)

/-- A commit entry with the sha. -/
def isTarget (sha : Text) (e : TodoEntry) : Bool := e.action.isCommit && shaMatches e.sha sha

def findCommit (entries : List TodoEntry) (sha : Text) : Except TodoError Nat :=
  match entries.findIdx? (isTarget sha) with
  | some i => .ok i
  | none => .error (.shaNotFound sha)

/-- The loop of `move_entry` over the entries that lie in its direction, nearest first: how many are
jumped over before the next commit. -/
def scan (atEnd : String) : List TodoEntry → Except TodoError Nat
  | [] => .error (.cannotMove atEnd)
  | e :: rest =>
    if e.action.isCommit then .ok 0
    else if e.action.isStructural then .error (.cannotMove "would cross a structural rebase line")
    else (scan atEnd rest).map (· + 1)

/-- `swap` of a vector. -/
def swapAt {α : Type} (l : List α) (i j : Nat) : List α :=
  match l[i]?, l[j]? with
  | some x, some y => (l.set i y).set j x
  | _, _ => l

def moveEntry (entries : List TodoEntry) (sha : Text) (up : Bool) :
    Except TodoError (List TodoEntry) := do
  let start ← findCommit entries sha
  let dest ←
    if up then (scan "already first" (entries.take start).reverse).map fun k => start - 1 - k
    else (scan "already last" (entries.drop (start + 1))).map fun k => start + 1 + k
  pure (swapAt entries start dest)

/-- Place a fixup directly behind its target. -/
def placeFixup (entries : List TodoEntry) (fixupSha targetSha : Text) :
    Except TodoError (List TodoEntry) := do
  let start ← findCommit entries fixupSha
  let target ← findCommit entries targetSha
  if start = target then .error (.cannotMove "fixup and target are the same commit")
  else
    match entries[start]? with
    | none => pure entries -- not reached: a commit that was found is in range
    | some fix =>
      let out := entries.eraseIdx start
      let target := if start < target then target - 1 else target
      pure (out.insertIdx (target + 1) { fix with action := .fixup })

/-! ## What the commands find -/

/-- Neither a commit nor structural. -/
def Inert (e : TodoEntry) : Prop := e.action.isCommit = false ∧ e.action.isStructural = false

theorem scan_eq_ok {atEnd : String} {l : List TodoEntry} {k : Nat} :
    scan atEnd l = .ok k ↔
      ∃ jumped c rest, l = jumped ++ c :: rest ∧ jumped.length = k ∧ (∀ e ∈ jumped, Inert e) ∧
        c.action.isCommit = true := by
  induction l generalizing k with
  | nil => simp [scan]
  | cons e l ih =>
    rw [scan]
    split_ifs with hcommit hstructural
    · constructor
      · rintro h
        cases h
        exact ⟨[], e, l, rfl, rfl, fun _ he => absurd he not_mem_nil, hcommit⟩
      · rintro ⟨jumped, c, rest, heq, rfl, hinert, -⟩
        cases jumped with
        | nil => rfl
        | cons d jumped =>
          rw [cons_append, List.cons.injEq] at heq
          have hno := (hinert d (.head _)).1
          rw [← heq.1, hcommit] at hno
          cases hno
    · constructor
      · rintro h
        cases h
      · rintro ⟨jumped, c, rest, heq, rfl, hinert, hc⟩
        cases jumped with
        | nil =>
          rw [nil_append, List.cons.injEq] at heq
          exact absurd (heq.1 ▸ hc) hcommit
        | cons d jumped =>
          rw [cons_append, List.cons.injEq] at heq
          have hno := (hinert d (.head _)).2
          rw [← heq.1, hstructural] at hno
          cases hno
    · constructor
      · intro h
        cases hs : scan atEnd l with
        | error e => rw [hs] at h; cases h
        | ok n =>
          rw [hs] at h
          cases h
          obtain ⟨jumped, c, rest, rfl, hlen, hinert, hc⟩ := ih.mp hs
          refine ⟨e :: jumped, c, rest, rfl, by rw [length_cons, hlen], ?_, hc⟩
          exact forall_mem_cons.mpr
            ⟨⟨Bool.eq_false_iff.mpr hcommit, Bool.eq_false_iff.mpr hstructural⟩, hinert⟩
      · rintro ⟨jumped, c, rest, heq, rfl, hinert, hc⟩
        cases jumped with
        | nil =>
          rw [nil_append, List.cons.injEq] at heq
          exact absurd (heq.1 ▸ hc) hcommit
        | cons d jumped =>
          rw [cons_append, List.cons.injEq] at heq
          have hrest := ih.mpr ⟨jumped, c, rest, heq.2, rfl, fun e he => hinert e (.tail _ he), hc⟩
          rw [hrest]
          rfl

theorem findCommit_eq_ok {entries : List TodoEntry} {sha : Text} {i : Nat} :
    findCommit entries sha = .ok i ↔
      ∃ pre e post, entries = pre ++ e :: post ∧ pre.length = i ∧ isTarget sha e = true ∧
        ∀ d ∈ pre, isTarget sha d = false := by
  have hok : findCommit entries sha = .ok i ↔ entries.findIdx? (isTarget sha) = some i := by
    unfold findCommit
    cases entries.findIdx? (isTarget sha) with
    | none => simp
    | some j => simp
  rw [hok, List.findIdx?_eq_some_iff_getElem]
  constructor
  · rintro ⟨hi, htarget, hbefore⟩
    refine ⟨entries.take i, entries[i], entries.drop (i + 1), ?_, length_take_of_le (by omega),
      htarget, ?_⟩
    · rw [getElem_cons_drop, take_append_drop]
    · intro d hd
      obtain ⟨j, hj, rfl⟩ := getElem_of_mem hd
      rw [length_take] at hj
      rw [getElem_take]
      exact Bool.eq_false_iff.mpr (hbefore j (by omega))
  · rintro ⟨pre, e, post, rfl, rfl, htarget, hpre⟩
    refine ⟨by simp, by simpa using htarget, ?_⟩
    intro j hj
    rw [getElem_append_left hj]
    exact Bool.eq_false_iff.mp (hpre _ (getElem_mem hj))

theorem swapAt_middle {α : Type} (pre mid post : List α) (x y : α) :
    swapAt (pre ++ x :: (mid ++ y :: post)) pre.length (pre.length + 1 + mid.length) =
      pre ++ y :: (mid ++ x :: post) := by
  have hx : (pre ++ x :: (mid ++ y :: post))[pre.length]? = some x := by simp
  have hy : (pre ++ x :: (mid ++ y :: post))[pre.length + 1 + mid.length]? = some y := by
    rw [List.getElem?_append_right (by omega), Nat.add_assoc, Nat.add_sub_cancel_left,
      Nat.add_comm 1,
      List.getElem?_cons_succ, List.getElem?_append_right le_rfl, Nat.sub_self,
      List.getElem?_cons_zero]
  rw [swapAt, hx, hy]
  dsimp only
  rw [set_append_right _ _ le_rfl, Nat.sub_self, set_cons_zero,
    set_append_right _ _ (by omega), Nat.add_assoc, Nat.add_sub_cancel_left, Nat.add_comm 1,
    set_cons_succ, set_append_right _ _ le_rfl, Nat.sub_self, set_cons_zero]

theorem swapAt_comm {α : Type} (l : List α) (i j : Nat) : swapAt l i j = swapAt l j i := by
  by_cases hij : i = j
  · rw [hij]
  · unfold swapAt
    cases l[i]? with
    | none => cases l[j]? <;> rfl
    | some x =>
      cases l[j]? with
      | none => rfl
      | some y => exact set_comm _ _ hij

/-! ## What a move exchanges -/

/-- A move up exchanges the target with the next commit before it. -/
theorem moveEntry_up {entries out : List TodoEntry} {sha : Text} :
    moveEntry entries sha true = .ok out ↔
      ∃ pre x mid y post, entries = pre ++ x :: (mid ++ y :: post) ∧
      out = pre ++ y :: (mid ++ x :: post) ∧
        (∀ e ∈ mid, Inert e) ∧ x.action.isCommit = true ∧ isTarget sha y = true ∧
        ∀ d ∈ pre ++ x :: mid, isTarget sha d = false := by
  constructor
  · intro h
    rw [moveEntry] at h
    cases hfind : findCommit entries sha with
    | error e => rw [hfind] at h; cases h
    | ok start =>
      obtain ⟨before, y, post, rfl, rfl, hy, hbefore⟩ := findCommit_eq_ok.mp hfind
      rw [hfind] at h
      simp only [if_true, take_left, bind, Except.bind] at h
      cases hscan : scan "already first" before.reverse with
      | error e => rw [hscan] at h; cases h
      | ok k =>
        obtain ⟨jumped, x, rest, hsplit, rfl, hinert, hx⟩ := scan_eq_ok.mp hscan
        have hpre : before = rest.reverse ++ x :: jumped.reverse := by
          rw [← reverse_reverse before, hsplit]
          simp
        rw [hscan] at h
        subst hpre
        have hlen : rest.reverse.length + 1 + jumped.reverse.length - 1 - jumped.length =
            rest.reverse.length := by
          rw [length_reverse, length_reverse]
          omega
        have hstart : (rest.reverse ++ x :: jumped.reverse).length =
            rest.reverse.length + 1 + jumped.reverse.length := by
          simp only [length_append, length_cons]
          omega
        simp only [Except.map, hstart, hlen, pure, Except.pure, Except.ok.injEq] at h
        rw [append_assoc, cons_append, swapAt_comm, swapAt_middle] at h
        refine ⟨rest.reverse, x, jumped.reverse, y, post, ?_, h.symm, ?_, hx, hy, hbefore⟩
        · rw [append_assoc, cons_append]
        · exact fun e he => hinert e (mem_reverse.mp he)
  · rintro ⟨pre, x, mid, y, post, rfl, rfl, hinert, hx, hy, hbefore⟩
    have hfind : findCommit (pre ++ x :: (mid ++ y :: post)) sha =
      .ok (pre.length + 1 + mid.length) := by
      refine findCommit_eq_ok.mpr ⟨pre ++ x :: mid, y, post, ?_, ?_, hy, hbefore⟩
      · rw [append_assoc, cons_append]
      · simp only [length_append, length_cons]
        omega
    have htake : (pre ++ x :: (mid ++ y :: post)).take (pre.length + 1 + mid.length) =
      pre ++ x :: mid := by
      have hassoc : pre ++ x :: (mid ++ y :: post) = (pre ++ x :: mid) ++ y :: post := by
        rw [append_assoc, cons_append]
      rw [hassoc]
      refine take_left' ?_
      simp only [length_append, length_cons]
      omega
    have hscan : scan "already first" (pre ++ x :: mid).reverse = .ok mid.reverse.length := by
      refine scan_eq_ok.mpr ⟨mid.reverse, x, pre.reverse, by simp, rfl, ?_, hx⟩
      exact fun e he => hinert e (mem_reverse.mp he)
    rw [moveEntry, hfind]
    simp only [if_true, bind, Except.bind, htake, hscan, Except.map, pure, Except.pure,
      Except.ok.injEq]
    have hdest : pre.length + 1 + mid.length - 1 - mid.reverse.length = pre.length := by
      rw [length_reverse]
      omega
    rw [hdest, swapAt_comm, swapAt_middle]

/-- A move down exchanges it with the next commit behind it. -/
theorem moveEntry_down {entries out : List TodoEntry} {sha : Text} :
    moveEntry entries sha false = .ok out ↔
      ∃ pre x mid y post, entries = pre ++ x :: (mid ++ y :: post) ∧
      out = pre ++ y :: (mid ++ x :: post) ∧
        (∀ e ∈ mid, Inert e) ∧ isTarget sha x = true ∧ y.action.isCommit = true ∧
        ∀ d ∈ pre, isTarget sha d = false := by
  constructor
  · intro h
    rw [moveEntry] at h
    cases hfind : findCommit entries sha with
    | error e => rw [hfind] at h; cases h
    | ok start =>
      obtain ⟨pre, x, behind, rfl, rfl, hx, hpre⟩ := findCommit_eq_ok.mp hfind
      rw [hfind] at h
      have hdrop : (pre ++ x :: behind).drop (pre.length + 1) = behind := by simp
      simp only [Bool.false_eq_true, if_false, bind, Except.bind, hdrop] at h
      cases hscan : scan "already last" behind with
      | error e => rw [hscan] at h; cases h
      | ok k =>
        obtain ⟨jumped, y, rest, rfl, rfl, hinert, hy⟩ := scan_eq_ok.mp hscan
        rw [hscan] at h
        simp only [Except.map, pure, Except.pure, Except.ok.injEq] at h
        rw [swapAt_middle] at h
        exact ⟨pre, x, jumped, y, rest, rfl, h.symm, hinert, hx, hy, hpre⟩
  · rintro ⟨pre, x, mid, y, post, rfl, rfl, hinert, hx, hy, hpre⟩
    have hfind : findCommit (pre ++ x :: (mid ++ y :: post)) sha = .ok pre.length :=
      findCommit_eq_ok.mpr ⟨pre, x, mid ++ y :: post, rfl, rfl, hx, hpre⟩
    have hdrop : (pre ++ x :: (mid ++ y :: post)).drop (pre.length + 1) = mid ++ y :: post := by
      simp
    have hscan : scan "already last" (mid ++ y :: post) = .ok mid.length :=
      scan_eq_ok.mpr ⟨mid, y, post, rfl, rfl, hinert, hy⟩
    rw [moveEntry, hfind]
    simp only [Bool.false_eq_true, if_false, bind, Except.bind, hdrop, hscan, Except.map, pure,
      Except.pure, Except.ok.injEq]
    exact swapAt_middle pre mid post x y

/-! ## Adjacent transpositions -/

/-- The commits of the list. -/
def commits (entries : List TodoEntry) : List TodoEntry := entries.filter fun e => e.action.isCommit

/-- **What a move should do**: it exchanges two neighbours among the commits; every other line keeps
its place, and so does every line its side of a structural one. -/
structure Transposed (entries out : List TodoEntry) : Prop where
  perm : out.Perm entries
  fixed : ∀ (i : Nat) (e : TodoEntry), entries[i]? = some e → e.action.isCommit = false →
    out[i]? = some e
  adjacent : ∃ before x y after, x ≠ y ∧ commits entries = before ++ x :: y :: after ∧
    commits out = before ++ y :: x :: after
  sides : ∀ (i : Nat) (e : TodoEntry), entries[i]? = some e → e.action.isStructural = true →
    (out.take i).Perm (entries.take i) ∧ (out.drop (i + 1)).Perm (entries.drop (i + 1))

theorem commits_append (l r : List TodoEntry) : commits (l ++ r) = commits l ++ commits r :=
  filter_append l r

theorem commits_cons {e : TodoEntry} (h : e.action.isCommit = true) (l : List TodoEntry) :
    commits (e :: l) = e :: commits l := filter_cons_of_pos h

theorem commits_inert {l : List TodoEntry} (h : ∀ e ∈ l, Inert e) : commits l = [] := by
  rw [commits, filter_eq_nil_iff]
  exact fun e he => Bool.eq_false_iff.mp (h e he).1

theorem not_isStructural_of_isCommit {a : TodoAction} (h : a.isCommit = true) :
    a.isStructural = false := by
  cases a <;> first | rfl | cases h

section Exchange

variable {pre mid post : List TodoEntry} {x y : TodoEntry}

/-- A line at another place than the two commits is before, between or behind them. -/
theorem getElem?_cases {i : Nat} {e : TodoEntry}
    (h : (pre ++ x :: (mid ++ y :: post))[i]? = some e) :
    (i < pre.length ∧ pre[i]? = some e) ∨ (i = pre.length ∧ e = x) ∨
      (∃ j, i = pre.length + (j + 1) ∧ mid[j]? = some e) ∨
      (i = pre.length + (mid.length + 1) ∧ e = y) ∨
      ∃ j, i = pre.length + (mid.length + (j + 1) + 1) ∧ post[j]? = some e := by
  by_cases hpre : i < pre.length
  · rw [List.getElem?_append_left hpre] at h
    exact .inl ⟨hpre, h⟩
  · obtain ⟨j, rfl⟩ := Nat.exists_eq_add_of_le (Nat.le_of_not_lt hpre)
    rw [List.getElem?_append_right (Nat.le_add_right _ _), Nat.add_sub_cancel_left] at h
    cases j with
    | zero =>
      rw [List.getElem?_cons_zero, Option.some.injEq] at h
      exact .inr (.inl ⟨rfl, h.symm⟩)
    | succ j =>
      rw [List.getElem?_cons_succ] at h
      by_cases hmid : j < mid.length
      · rw [List.getElem?_append_left hmid] at h
        exact .inr (.inr (.inl ⟨j, rfl, h⟩))
      · obtain ⟨k, rfl⟩ := Nat.exists_eq_add_of_le (Nat.le_of_not_lt hmid)
        rw [List.getElem?_append_right (Nat.le_add_right _ _), Nat.add_sub_cancel_left] at h
        cases k with
        | zero =>
          rw [List.getElem?_cons_zero, Option.some.injEq] at h
          exact .inr (.inr (.inr (.inl ⟨rfl, h.symm⟩)))
        | succ k =>
          rw [List.getElem?_cons_succ] at h
          exact .inr (.inr (.inr (.inr ⟨k, rfl, h⟩)))

/-- Two commits with only inert lines between them. -/
theorem transposed_exchange (hinert : ∀ e ∈ mid, Inert e) (hx : x.action.isCommit = true)
    (hy : y.action.isCommit = true) (hne : x ≠ y) :
    Transposed (pre ++ x :: (mid ++ y :: post)) (pre ++ y :: (mid ++ x :: post)) where
  perm := exchange_perm pre mid post x y
  fixed := by
    intro i e h hcommit
    rcases getElem?_cases h with ⟨hi, he⟩ | ⟨-, rfl⟩ | ⟨j, rfl, he⟩ | ⟨-, rfl⟩ | ⟨j, rfl, he⟩
    · rw [List.getElem?_append_left hi, he]
    · rw [hx] at hcommit
      cases hcommit
    · have hj : j < mid.length := (List.getElem?_eq_some_iff.mp he).1
      rw [List.getElem?_append_right (Nat.le_add_right _ _), Nat.add_sub_cancel_left,
        List.getElem?_cons_succ, List.getElem?_append_left hj, he]
    · rw [hy] at hcommit
      cases hcommit
    · rw [List.getElem?_append_right (Nat.le_add_right _ _), Nat.add_sub_cancel_left,
        List.getElem?_cons_succ, List.getElem?_append_right (Nat.le_add_right _ _),
        Nat.add_sub_cancel_left, List.getElem?_cons_succ, he]
  adjacent := by
    refine ⟨commits pre, x, y, commits post, hne, ?_, ?_⟩
    · rw [commits_append, commits_cons hx, commits_append, commits_inert hinert, commits_cons hy,
        nil_append]
    · rw [commits_append, commits_cons hy, commits_append, commits_inert hinert, commits_cons hx,
        nil_append]
  sides := by
    intro i e h hstructural
    rcases getElem?_cases h with ⟨hi, he⟩ | ⟨-, rfl⟩ | ⟨j, rfl, he⟩ | ⟨-, rfl⟩ | ⟨j, rfl, he⟩
    · -- a line before both commits
      rw [take_append_of_le_length (Nat.le_of_lt hi), take_append_of_le_length (Nat.le_of_lt hi),
        drop_append_of_le_length hi, drop_append_of_le_length hi]
      exact ⟨.refl _, exchange_perm _ mid post x y⟩
    · rw [not_isStructural_of_isCommit hx] at hstructural
      cases hstructural
    · rw [(hinert e (mem_of_getElem? he)).2] at hstructural
      cases hstructural
    · rw [not_isStructural_of_isCommit hy] at hstructural
      cases hstructural
    · -- a line behind both commits
      have htake : ∀ a b : TodoEntry,
          (pre ++ a :: (mid ++ b :: post)).take (pre.length + (mid.length + (j + 1) + 1)) =
            pre ++ a :: (mid ++ b :: post.take j) := by
        intro a b
        rw [take_length_add_append, take_succ_cons, take_length_add_append, take_succ_cons]
      have hdrop : ∀ a b : TodoEntry,
          (pre ++ a :: (mid ++ b :: post)).drop (pre.length + (mid.length + (j + 1) + 1) + 1) =
            post.drop (j + 1) := by
        intro a b
        have hsum : pre.length + (mid.length + (j + 1) + 1) + 1 =
            pre.length + (mid.length + ((j + 1) + 1) + 1) := by omega
        rw [hsum, drop_length_add_append, drop_succ_cons, drop_length_add_append, drop_succ_cons]
      rw [htake, htake, hdrop, hdrop]
      exact ⟨exchange_perm pre mid _ x y, .refl _⟩

end Exchange

theorem isCommit_of_isTarget {sha : Text} {e : TodoEntry} (h : isTarget sha e = true) :
    e.action.isCommit = true := (Bool.and_eq_true_iff.mp h).1

theorem not_isTarget_of_inert {sha : Text} {e : TodoEntry} (h : Inert e) :
    isTarget sha e = false := by
  rw [isTarget, h.1, Bool.false_and]

/-- **A move of a commit that only one sha names** is an adjacent transposition, and the move back
undoes it. -/
theorem moveEntry_transposed {entries out : List TodoEntry} {sha : Text} {up : Bool}
    (hone : entries.countP (isTarget sha) = 1) (h : moveEntry entries sha up = .ok out) :
    Transposed entries out ∧ moveEntry out sha (!up) = .ok entries := by
  cases up with
  | true =>
    obtain ⟨pre, x, mid, y, post, rfl, rfl, hinert, hx, hy, hbefore⟩ := moveEntry_up.mp h
    have hxno : isTarget sha x = false := hbefore x (by simp)
    have hne : x ≠ y := by
      rintro rfl
      rw [hxno] at hy
      cases hy
    refine ⟨transposed_exchange hinert hx (isCommit_of_isTarget hy) hne, ?_⟩
    exact moveEntry_down.mpr ⟨pre, y, mid, x, post, rfl, rfl, hinert, hy, hx,
      fun d hd => hbefore d (mem_append_left _ hd)⟩
  | false =>
    obtain ⟨pre, x, mid, y, post, rfl, rfl, hinert, hx, hy, hpre⟩ := moveEntry_down.mp h
    have hyno : isTarget sha y = false := by
      rw [Bool.eq_false_iff]
      intro hy'
      rw [countP_append, countP_cons_of_pos hx, countP_append, countP_cons_of_pos hy'] at hone
      omega
    have hne : x ≠ y := by
      rintro rfl
      rw [hyno] at hx
      cases hx
    refine ⟨transposed_exchange hinert (isCommit_of_isTarget hx) hy hne, ?_⟩
    refine moveEntry_up.mpr ⟨pre, y, mid, x, post, rfl, rfl, hinert, hy, hx, ?_⟩
    simp only [forall_mem_append, forall_mem_cons]
    exact ⟨hpre, hyno, fun e he => not_isTarget_of_inert (hinert e he)⟩

/-! ## Placing a fixup -/

/-- The first commit entry with the sha, at index `i`. -/
def FirstCommit (entries : List TodoEntry) (sha : Text) (i : Nat) (e : TodoEntry) : Prop :=
  entries[i]? = some e ∧ isTarget sha e = true ∧
    ∀ (j : Nat) (d : TodoEntry), j < i → entries[j]? = some d → isTarget sha d = false

theorem firstCommit_of_findCommit {entries : List TodoEntry} {sha : Text} {i : Nat}
    (h : findCommit entries sha = .ok i) : ∃ e, FirstCommit entries sha i e := by
  obtain ⟨pre, e, post, rfl, rfl, he, hpre⟩ := findCommit_eq_ok.mp h
  refine ⟨e, by simp, he, ?_⟩
  intro j d hj hd
  rw [List.getElem?_append_left hj] at hd
  exact hpre d (mem_of_getElem? hd)

theorem findCommit_of_firstCommit {entries : List TodoEntry} {sha : Text} {i : Nat} {e : TodoEntry}
    (h : FirstCommit entries sha i e) : findCommit entries sha = .ok i := by
  obtain ⟨hrange, hget⟩ := List.getElem?_eq_some_iff.mp h.1
  have hsplit : entries = entries.take i ++ e :: entries.drop (i + 1) := by
    rw [← hget, getElem_cons_drop, take_append_drop]
  refine findCommit_eq_ok.mpr ⟨_, e, _, hsplit, length_take_of_le (Nat.le_of_lt hrange), h.2.1, ?_⟩
  intro d hd
  obtain ⟨j, hj, rfl⟩ := getElem_of_mem hd
  rw [length_take] at hj
  refine h.2.2 j _ (by omega) ?_
  rw [getElem_take]
  exact List.getElem?_eq_getElem _

/-- **What placing a fixup should do**: the fixup stands directly behind its target, and without it
the lines are the ones there were without it. -/
def PlacedFixup (entries : List TodoEntry) (fixupSha targetSha : Text)
    (out : List TodoEntry) : Prop :=
  ∃ i fix j target l r, FirstCommit entries fixupSha i fix ∧
    FirstCommit entries targetSha j target ∧
    i ≠ j ∧ entries.eraseIdx i = l ++ target :: r ∧ l.length = (if i < j then j - 1 else j) ∧
    out = l ++ target :: { fix with action := .fixup } :: r

theorem insertIdx_behind {α : Type} (l r : List α) (x y : α) :
    (l ++ x :: r).insertIdx (l.length + 1) y = l ++ x :: y :: r := by
  induction l with
  | nil => rfl
  | cons a l ih => rw [cons_append, length_cons, insertIdx_succ_cons, ih, cons_append]

theorem placeFixup_placed {entries out : List TodoEntry} {fixupSha targetSha : Text}
    (h : placeFixup entries fixupSha targetSha = .ok out) :
    PlacedFixup entries fixupSha targetSha out := by
  rw [placeFixup] at h
  cases hfix : findCommit entries fixupSha with
  | error e => rw [hfix] at h; cases h
  | ok i =>
    cases htarget : findCommit entries targetSha with
    | error e => rw [hfix, htarget] at h; cases h
    | ok j =>
      obtain ⟨fix, hfirst⟩ := firstCommit_of_findCommit hfix
      obtain ⟨target, hfirst'⟩ := firstCommit_of_findCommit htarget
      rw [hfix, htarget] at h
      simp only [bind, Except.bind] at h
      by_cases hij : i = j
      · rw [if_pos hij] at h
        cases h
      · rw [if_neg hij, hfirst.1] at h
        simp only [pure, Except.pure, Except.ok.injEq] at h
        obtain ⟨k, hk⟩ : ∃ k, k = if i < j then j - 1 else j := ⟨_, rfl⟩
        rw [← hk] at h
        -- the target in the list without the fixup
        have hat : (entries.eraseIdx i)[k]? = some target := by
          rw [hk]
          split_ifs with hlt
          · rw [List.getElem?_eraseIdx_of_ge (by omega), Nat.sub_add_cancel (by omega)]
            exact hfirst'.1
          · rw [List.getElem?_eraseIdx_of_lt (by omega)]
            exact hfirst'.1
        obtain ⟨hrange, hget⟩ := List.getElem?_eq_some_iff.mp hat
        have hsplit : entries.eraseIdx i =
            (entries.eraseIdx i).take k ++ target :: (entries.eraseIdx i).drop (k + 1) := by
          rw [← hget, getElem_cons_drop, take_append_drop]
        have hlen : ((entries.eraseIdx i).take k).length = k :=
          length_take_of_le (Nat.le_of_lt hrange)
        refine ⟨i, fix, j, target, _, _, hfirst, hfirst', hij, hsplit, hlen.trans hk, ?_⟩
        rw [← h, ← insertIdx_behind, hlen, ← hsplit]

/-- Two commits that are found are told apart by where they are found first. -/
theorem placeFixup_eq_ok {entries : List TodoEntry} {fixupSha targetSha : Text} {i j : Nat}
    {fix target : TodoEntry} (hfix : FirstCommit entries fixupSha i fix)
    (htarget : FirstCommit entries targetSha j target) (hij : i ≠ j) :
    ∃ out, placeFixup entries fixupSha targetSha = .ok out := by
  rw [placeFixup, findCommit_of_firstCommit hfix, findCommit_of_firstCommit htarget]
  simp only [bind, Except.bind]
  rw [if_neg hij, hfix.1]
  exact ⟨_, rfl⟩

/-- **Reordering a todo is safe.** A move that succeeds for a sha of one commit is an adjacent
transposition of the commits that the opposite move undoes. A fixup is placed directly behind its
target whenever both commits are found and differ, and nothing else is ever placed. -/
theorem reorder_safe (entries : List TodoEntry) :
    (∀ sha up out, entries.countP (isTarget sha) = 1 → moveEntry entries sha up = .ok out →
      Transposed entries out ∧ moveEntry out sha (!up) = .ok entries) ∧
    (∀ fixupSha targetSha i j fix target, FirstCommit entries fixupSha i fix →
      FirstCommit entries targetSha j target → i ≠ j →
      ∃ out, placeFixup entries fixupSha targetSha = .ok out ∧
        PlacedFixup entries fixupSha targetSha out) ∧
    ∀ fixupSha targetSha out, placeFixup entries fixupSha targetSha = .ok out →
      PlacedFixup entries fixupSha targetSha out := by
  refine ⟨fun _ _ _ hone h => moveEntry_transposed hone h, ?_, fun _ _ _ h => placeFixup_placed h⟩
  intro fixupSha targetSha i j fix target hfix htarget hij
  obtain ⟨out, h⟩ := placeFixup_eq_ok hfix htarget hij
  exact ⟨out, h, placeFixup_placed h⟩

/-- Two picks with a command between them. -/
def twoPicks : List TodoEntry :=
  [{ action := .pick, sha := ['a', '1'], subject := [] }, entry .break,
    { action := .pick, sha := ['b', '2'], subject := [] }]

theorem twoPicks_reorder :
    (Transposed twoPicks twoPicks.reverse ∧ moveEntry twoPicks.reverse ['b'] false = .ok twoPicks) ∧
      (∃ out, placeFixup twoPicks ['b'] ['a', '1', '0'] = .ok out ∧
        PlacedFixup twoPicks ['b'] ['a', '1', '0'] out) ∧
      PlacedFixup twoPicks ['b'] ['a', '1', '0']
        [{ action := .pick, sha := ['a', '1'], subject := [] },
          { action := .fixup, sha := ['b', '2'], subject := [] }, entry .break] := by
  refine ⟨(reorder_safe twoPicks).1 ['b'] true twoPicks.reverse (by decide) (by rfl), ?_,
    (reorder_safe twoPicks).2.2 ['b'] ['a', '1', '0'] _ (by rfl)⟩
  refine (reorder_safe twoPicks).2.1 ['b'] ['a', '1', '0'] 2 0 _ _ ⟨rfl, by decide, ?_⟩
    ⟨rfl, by decide, by omega⟩ (by decide)
  intro j d hj hd
  obtain rfl | rfl : j = 0 ∨ j = 1 := by omega
  · cases hd
    decide
  · cases hd
    decide

end Thegn.Rebase
