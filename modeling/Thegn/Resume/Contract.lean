import Thegn.Dispatch.Status
import Thegn.Resume.Structure

set_option autoImplicit false

/-! # The completion contract of a stage prompt

`completion_contract` of `thegn-host/src/stage_prompt.rs`. The artifact of a dispatch is always an
`artifactPath`, whose characters are letters, digits and a few signs, so every contract that is
appended to a stage prompt is a `GeneratedContract` as soon as it is within its bound
(`generatedContract_completionContract`).
-/

namespace Thegn.Resume

open Text Occur Dispatch
open List hiding contains

/-! ## Artifact paths -/

/-- A character of an artifact path. -/
def isPathChar (c : Char) : Bool := c.isAlphanum || c == '.' || c == '_' || c == '-' || c == '/'

def PathText (t : Text) : Prop := ∀ c ∈ t, isPathChar c = true

theorem pathText_of_all {t : Text} (h : t.all isPathChar = true) : PathText t := all_eq_true.mp h

theorem pathText_foldl {raw : Text} : ∀ {out : Text}, PathText out →
    PathText (raw.foldl sanitizeStep out) := by
  induction raw with
  | nil => exact fun hout => hout
  | cons c raw ih =>
    intro out hout
    rw [foldl_cons]
    apply ih
    rw [sanitizeStep]
    split_ifs with hkeep
    · refine forall_mem_append.mpr ⟨hout, fun d hd => ?_⟩
      rw [mem_singleton.mp hd]
      simp only [Bool.or_eq_true, decide_eq_true_eq] at hkeep
      rcases hkeep with ((h | rfl) | rfl) | rfl
      · simp [isPathChar, h]
      · decide
      · decide
      · decide
    · exact hout
    · exact forall_mem_append.mpr ⟨hout, pathText_of_all (by decide)⟩

theorem pathText_sanitizeComponent {raw fallback : Text} (h : PathText fallback) :
    PathText (sanitizeComponent raw fallback) := by
  have hloop : PathText (raw.foldl sanitizeStep []) :=
    pathText_foldl fun c hc => absurd hc not_mem_nil
  unfold sanitizeComponent
  dsimp only
  split_ifs
  · exact h
  · intro c hc
    exact hloop c ((dropWhile_suffix _).subset ((trimEndMatches_isPrefix _ _).subset hc))

theorem pathText_idText (n : Int) : PathText (idText n) := by
  have hnat : PathText (ofNat n.natAbs) := by
    intro c hc
    simp [isPathChar, Char.isAlphanum, isDigit_of_mem_ofNat hc]
  unfold idText
  split_ifs
  · intro c hc
    rcases mem_cons.mp hc with rfl | hc
    · decide
    · exact hnat c hc
  · exact hnat

/-- **An artifact path has no other characters.** -/
theorem pathText_artifactPath (issueId stage : Text) (rowId : Int) :
    PathText (artifactPath issueId stage rowId) := by
  have hkey : PathText (issueKey issueId) :=
    pathText_sanitizeComponent (pathText_of_all (by decide))
  have hstage : PathText (sanitizeComponent stage "stage".toList) :=
    pathText_sanitizeComponent (pathText_of_all (by decide))
  unfold artifactPath PathText
  simp only [forall_mem_append]
  exact ⟨⟨⟨⟨⟨⟨pathText_of_all (by decide), hkey⟩, pathText_of_all (by decide)⟩, hstage⟩,
    pathText_of_all (by decide)⟩, pathText_idText rowId⟩, pathText_of_all (by decide)⟩

/-! ## The contract -/

/-- `\u{..}`, the escape of a character by its number. -/
def unicodeEscape (c : Char) : Text := ['\\', 'u', '{'] ++ Nat.toDigits 16 c.toNat ++ ['}']

def contractChar (c : Char) : Text :=
  if c = '`' then unicodeEscape c
  else if isControl c || c == '\u2028' || c == '\u2029' then unicodeEscape c
  else [c]

def contractHead : Text :=
  parts ["--- thegn completion contract v2 ", "(runtime policy, not task text) ---\n",
    "You are dispatch row "]

def contractCommit : Text := parts [". Commit the handoff artifact at `"]

def contractReport : Text :=
  parts ["`.\n", "Then file your report for this row ", "with `thegn dispatch report "]

def contractTail : Text :=
  parts [" --text $'<VERDICT>: <summary>\\n", "gate: <command> -- <result>'`.\n",
    "Lead with one verdict on the first line: ", "PASS, REVISE, FAIL, or BLOCKED. ",
    "Only PASS can complete the row,\n", "and only with a `gate:` line naming ",
    "the validation command and its\n", "successful result after ` -- `. ",
    "Do not change this row's status; ", "the supervisor verifies the artifact ",
    "and report and closes the row.\n", "--- end thegn completion contract v2 ---"]

def completionContract (row : Int) (artifact : Text) : Text :=
  contractHead ++ idText row ++ contractCommit ++ artifact.flatMap contractChar
    ++ contractReport ++ idText row ++ contractTail

/-! ## Generated contracts -/

theorem foreign_digit {m : Text} (hm : m ∈ marks) {c : Char} (hc : c.isDigit = true) :
    Foreign Char.toLower c m := by
  have hcheck : (marks.all fun m => m.all fun d => !d.toLower.isDigit) = true := by
    unfold marks delimiters markers openDelimiter closeDelimiter recoveryOpen recoveryClose
      completionContractOpenPrefix completionContractClosePrefix
    repeat rw [@toList_literal (String.ofList _) _ rfl]
    decide
  have hlower : c.toLower = c := by
    rw [Char.toLower, dif_neg]
    intro hupper
    have hletter : 0x41 ≤ c.val.toNat := hupper.1
    simp only [Char.isDigit, Bool.and_eq_true, decide_eq_true_eq, ge_iff_le] at hc
    have hsmall : c.val.toNat ≤ 0x39 := hc.2
    omega
  intro d hd heq
  have hno := all_eq_true.mp (all_eq_true.mp hcheck m hm) d hd
  rw [heq, hlower, hc] at hno
  cases hno

/-- Characters that are in no mark do not count. -/
theorem count_append_foreign {m t : Text} (hm : m ∈ marks) (h : ∀ c ∈ t, Foreign Char.toLower c m)
    (b : Text) : count m (t ++ b) = count m b := by
  induction t with
  | nil => rfl
  | cons c t ih =>
    have hsplit := occurrences_append_cons (h c (.head _)) (mark_ne_nil m hm) [] (t ++ b)
    rw [nil_append] at hsplit
    have hrest := ih fun d hd => h d (.tail _ hd)
    rw [cons_append, count, hsplit]
    exact (Nat.zero_add _).trans hrest

/-- A number between two texts separates them; its sign goes with the first one. -/
theorem count_number {m : Text} (hm : m ∈ marks) (a : Text) (n : Int) (b : Text)
    (hsign : count m (a ++ ['-']) = count m a) :
    count m (a ++ (idText n ++ b)) = count m a + count m b := by
  have hnat : ∀ (n : Nat) (a : Text), count m (a ++ (ofNat n ++ b)) = count m a + count m b := by
    intro n a
    obtain ⟨d, ds, hds, hd⟩ := Json.ofNat_cons n
    have hall : ∀ c ∈ ds, Foreign Char.toLower c m := by
      intro c hc
      refine foreign_digit hm (isDigit_of_mem_ofNat (n := n) ?_)
      rw [hds]
      exact .tail _ hc
    rw [hds, cons_append, count, occurrences_append_cons (foreign_digit hm hd) (mark_ne_nil m hm)]
    exact congrArg (count m a + ·) (count_append_foreign hm hall b)
  unfold idText
  split_ifs
  · have hminus := hnat n.natAbs (a ++ ['-'])
    rw [hsign, append_assoc] at hminus
    exact hminus
  · exact hnat n.natAbs a

theorem toNat_of_pathChar {c : Char} (h : isPathChar c = true) :
    0x2d ≤ c.toNat ∧ c.toNat ≤ 0x7a ∧ c.toNat ≠ 0x3c ∧ c.toNat ≠ 0x60 := by
  simp only [isPathChar, Char.isAlphanum, Char.isAlpha, Char.isUpper, Char.isLower, Char.isDigit,
    Bool.or_eq_true, Bool.and_eq_true, decide_eq_true_eq, beq_iff_eq, ge_iff_le] at h
  rcases h with (((((h | h) | h) | rfl) | rfl) | rfl) | rfl
  · have hupper : 0x41 ≤ c.toNat ∧ c.toNat ≤ 0x5a := ⟨h.1, h.2⟩
    omega
  · have hlower : 0x61 ≤ c.toNat ∧ c.toNat ≤ 0x7a := ⟨h.1, h.2⟩
    omega
  · have hdigit : 0x30 ≤ c.toNat ∧ c.toNat ≤ 0x39 := ⟨h.1, h.2⟩
    omega
  · decide
  · decide
  · decide
  · decide

/-- A character of a path is clean. -/
theorem clean_of_pathChar {c : Char} (h : isPathChar c = true) : Clean c := by
  obtain ⟨hlo, hhi, _, _⟩ := toNat_of_pathChar h
  refine ⟨.inl ?_, ?_⟩
  · simp only [isControl, Bool.or_eq_false_iff, Bool.and_eq_false_iff, decide_eq_false_iff_not]
    omega
  · simp only [isFormatControl, Bool.or_eq_false_iff, Bool.and_eq_false_iff, beq_eq_false_iff_ne,
      decide_eq_false_iff_not]
    omega

theorem flatMap_contractChar {t : Text} (h : PathText t) : t.flatMap contractChar = t := by
  have hkeep : ∀ c ∈ t, contractChar c = [c] := by
    intro c hc
    obtain ⟨hlo, hhi, _, hback⟩ := toNat_of_pathChar (h c hc)
    have hne : ∀ d : Char, 0x7a < d.toNat ∨ d.toNat = 0x60 → c ≠ d := by
      rintro d hd rfl
      omega
    have hcontrol : isControl c = false := by
      simp only [isControl, Bool.or_eq_false_iff, Bool.and_eq_false_iff, decide_eq_false_iff_not]
      omega
    rw [contractChar, if_neg (hne '`' (by decide)), if_neg]
    simp [hcontrol, hne '\u2028' (by decide), hne '\u2029' (by decide)]
  rw [flatMap_congr hkeep]
  exact flatMap_singleton' t

/-- The marks of an artifact path: none, for want of a blank and an angle bracket. -/
theorem count_pathText {m t : Text} (hm : m ∈ markers) (h : PathText t) : count m t = 0 := by
  have hcheck : (markers.all fun m => m.any fun d => d == ' ' || d == '<') = true := by
    unfold markers recoveryOpen recoveryClose completionContractOpenPrefix
      completionContractClosePrefix
    repeat rw [@toList_literal (String.ofList _) _ rfl]
    decide
  obtain ⟨d, hd, hsign⟩ := any_eq_true.mp (all_eq_true.mp hcheck m hm)
  have hlow : d.toLower = d ∧ (d.toNat = 0x20 ∨ d.toNat = 0x3c) := by
    rcases Bool.or_eq_true_iff.mp hsign with h | h
    · rw [beq_iff_eq.mp h]
      decide
    · rw [beq_iff_eq.mp h]
      decide
  apply occurrences_eq_zero hd
  intro c hc heq
  rw [hlow.1] at heq
  obtain ⟨hlo, _, hlt, _⟩ := toNat_of_pathChar (h c hc)
  have hcd := congrArg Char.toNat (eq_of_toLower_eq heq (by omega))
  omega

/-- What the kernel checks of the fixed texts: their marks, which a sign behind them does not
change, the closing line, and that they are clean. -/
theorem contract_texts :
    (∀ m ∈ markers, count m contractHead = (if m = completionContractOpenPrefix then 1 else 0) ∧
      count m (contractHead ++ ['-']) = count m contractHead ∧
      count m contractCommit = 0 ∧ count m contractReport = 0 ∧
      count m (contractReport ++ ['-']) = 0 ∧
      count m contractTail = (if m = completionContractClosePrefix then 1 else 0)) ∧
    (contractTail.getLast? = some '-' ∧ (stripSuffix " ---".toList contractTail).isSome = true ∧
      contains contractTail ('\n' :: completionContractClosePrefix) = true) ∧
    ∀ t ∈ [contractHead, contractCommit, contractReport, contractTail],
      t.all (fun c => decide (Clean c)) = true := by
  unfold contractHead contractCommit contractReport contractTail parts markers recoveryOpen
    recoveryClose completionContractOpenPrefix completionContractClosePrefix
  simp only [List.flatMap_cons, flatMap_nil]
  repeat rw [@toList_literal (String.ofList _) _ rfl]
  decide +kernel

theorem contractCommit_getLast? : contractCommit.getLast? = some '`' := by
  unfold contractCommit parts
  simp only [List.flatMap_cons, flatMap_nil]
  repeat rw [@toList_literal (String.ofList _) _ rfl]
  rfl

theorem contractReport_head? : contractReport.head? = some '`' := by
  unfold contractReport parts
  simp only [List.flatMap_cons, flatMap_nil]
  repeat rw [@toList_literal (String.ofList _) _ rfl]
  rfl

/-- The marks of a contract for an artifact path are its own two. -/
theorem count_completionContract (row : Int) {artifact m : Text} (hm : m ∈ markers)
    (h : PathText artifact) :
    count m (completionContract row artifact) =
      (if m = completionContractOpenPrefix then 1 else 0) +
        (if m = completionContractClosePrefix then 1 else 0) := by
  have hmark : m ∈ marks := mem_append_right _ hm
  obtain ⟨hhead, hsign, hcommit, hreport, hsign', htail⟩ := contract_texts.1 m hm
  have hfirst : ∀ t, (contractReport ++ t).head? = some '`' := by
    intro t
    rw [List.head?_append, contractReport_head?]
    rfl
  rw [completionContract, flatMap_contractChar h]
  simp only [append_assoc]
  rw [count_number hmark _ _ _ hsign,
    count_append_of_last hmark (by decide) contractCommit_getLast?,
    count_append_of_head hmark (by decide) (hfirst _),
    count_number hmark _ _ _ (hsign'.trans hreport.symm), hhead, hcommit,
    count_pathText hm h, hreport, htail]
  omega

theorem stripSuffix_append_left {p t : Text} (h : (stripSuffix p t).isSome = true) (l : Text) :
    (stripSuffix p (l ++ t)).isSome = true := by
  obtain ⟨r, hr⟩ := Option.isSome_iff_exists.mp h
  rw [stripSuffix, List.dropSuffix?_eq_some_iff] at hr
  obtain ⟨q, rfl, hq⟩ := hr
  refine Option.isSome_iff_exists.mpr ⟨l ++ r, ?_⟩
  rw [stripSuffix, List.dropSuffix?_eq_some_iff]
  exact ⟨q, (append_assoc l r q).symm, hq⟩

theorem generatedContract_of_pathText (row : Int) {artifact : Text} (h : PathText artifact)
    (hfits : byteLen (completionContract row artifact) ≤ contractMaxBytes) :
    GeneratedContract (completionContract row artifact) where
  valid := by
    have hopens : startsWith (completionContract row artifact) completionContractOpenPrefix =
      true := by
      obtain ⟨r, hr⟩ := startsWith_iff.mp
        (show startsWith contractHead completionContractOpenPrefix = true by
          unfold contractHead parts completionContractOpenPrefix
          simp only [List.flatMap_cons, flatMap_nil]
          repeat rw [@toList_literal (String.ofList _) _ rfl]
          decide)
      refine startsWith_iff.mpr ⟨r ++ (idText row ++ (contractCommit ++
        (artifact.flatMap contractChar ++ (contractReport ++ (idText row ++ contractTail))))), ?_⟩
      rw [completionContract, hr]
      simp only [append_assoc]
    have hcloses := contains_append_left contract_texts.2.1.2.2
      (contractHead ++ idText row ++ contractCommit ++ artifact.flatMap contractChar
        ++ contractReport ++ idText row)
    have hends := stripSuffix_append_left contract_texts.2.1.2.1
      (contractHead ++ idText row ++ contractCommit ++ artifact.flatMap contractChar
        ++ contractReport ++ idText row)
    have hlast : (completionContract row artifact).getLast? = some '-' := by
      rw [completionContract, List.getLast?_append, contract_texts.2.1.1]
      rfl
    rw [validContract, hopens, trimEnd,
      trimEndMatches_eq_self fun c hc => (Option.some.inj (hlast.symm.trans hc)) ▸ (by decide)]
    rw [← completionContract] at hcloses hends
    rw [hcloses, hends, decide_eq_true hfits]
    rfl
  openOnce := by
    rw [count_completionContract row (by decide) h]
    decide
  closeOnce := by
    rw [count_completionContract row (by decide) h]
    decide
  noRecovery := by
    rw [count_completionContract row (by decide) h, count_completionContract row (by decide) h]
    decide
  clean := by
    have hpath : ∀ t, PathText t → ∀ c ∈ t, Clean c := fun t ht c hc => clean_of_pathChar (ht c hc)
    have hclean : ∀ t ∈ [contractHead, contractCommit, contractReport, contractTail],
        ∀ c ∈ t, Clean c :=
      fun t ht c hc => of_decide_eq_true (all_eq_true.mp (contract_texts.2.2 t ht) c hc)
    rw [completionContract, flatMap_contractChar h]
    simp only [forall_mem_append]
    exact ⟨⟨⟨⟨⟨⟨hclean _ (.head _), hpath _ (pathText_idText row)⟩, hclean _ (.tail _ (.head _))⟩,
      hpath _ h⟩, hclean _ (.tail _ (.tail _ (.head _)))⟩, hpath _ (pathText_idText row)⟩,
      hclean _ (.tail _ (.tail _ (.tail _ (.head _))))⟩

/-- **The contract of a stage prompt is a generated one** as soon as it is within its bound. -/
theorem generatedContract_completionContract (row : Int) (issueId stage : Text) (rowId : Int)
    (hfits : byteLen (completionContract row (artifactPath issueId stage rowId)) ≤
      contractMaxBytes) :
    GeneratedContract (completionContract row (artifactPath issueId stage rowId)) :=
  generatedContract_of_pathText row (pathText_artifactPath issueId stage rowId) hfits

end Thegn.Resume
