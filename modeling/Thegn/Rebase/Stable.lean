import Thegn.Rebase.Todo

set_option autoImplicit false

/-! # Rewriting a todo

A todo that is read, written back and read again should give the same entries. It does, with one
exception: after `fixup` only a flag followed by a space counts as a flag, while any white space
ends a word. So `fixup -C` followed by a tab and a sha is read as a commit with the name `-C`, is
written back with a space, and is then read as a flag. `rewriteStable_iff` says that this is the
only case.
-/

namespace Thegn.Rebase

open Text List

/-! ## The condition -/

/-- The names of the flag. -/
def IsFlag (s : Text) : Prop := s = "-C".toList ∨ s = "-c".toList

instance (s : Text) : Decidable (IsFlag s) := inferInstanceAs (Decidable (_ ∨ _))

/-- A flag followed by white space that is not a space. -/
def Flagged (rest : Text) : Prop :=
  ∃ flag c r, IsFlag flag ∧ isWhitespace c = true ∧ c ≠ ' ' ∧ rest = flag ++ c :: r

/-- A `fixup` line, long or short, whose flag is followed by white space that is not a space. -/
def FlagDrift (line : Text) : Prop :=
  ∃ word c gap rest, isWord word "fixup" "f" = true ∧ isWhitespace c = true
    ∧ (∀ x ∈ gap, isWhitespace x = true) ∧ Flagged rest ∧ line = word ++ c :: (gap ++ rest)

/-! ## What is read -/

/-- The fields of an entry about a commit. -/
structure CommitShape (sha subject : Text) : Prop where
  sha_ne : sha ≠ []
  sha_word : ∀ c ∈ sha, isWhitespace c = false
  subject_trimmed : Trimmed subject
  subject_line : '\n' ∉ subject

/-- The argument of an action. -/
structure ArgShape (arg : Text) : Prop where
  ne : arg ≠ []
  trimmed : Trimmed arg
  line : '\n' ∉ arg

/-- The entries that a line that is understood can give. -/
def Shape (e : TodoEntry) : Prop :=
  match e.action with
  | .pick | .reword | .edit | .squash | .fixup | .fixupC | .drop => CommitShape e.sha e.subject
  | .exec arg | .label arg | .reset arg | .merge arg | .updateRef arg =>
    ArgShape arg ∧ e = entry e.action
  | .break | .noop => e = entry e.action
  | .unknown _ => False

/-- A fixup whose sha is the name of the flag. -/
def Drifts (e : TodoEntry) : Prop := e.action = .fixup ∧ IsFlag e.sha

theorem commitEntry_some {a : TodoAction} {rest : Text} {e : TodoEntry} (hr : Trimmed rest)
    (hl : '\n' ∉ rest) (h : commitEntry a rest = some e) :
    e.action = a ∧ CommitShape e.sha e.subject ∧ splitWord rest = (e.sha, e.subject) := by
  unfold commitEntry at h
  split_ifs at h with hne
  cases h
  obtain ⟨hword, htrim, hsha, -⟩ := splitWord_spec hr (Prod.mk.eta (p := splitWord rest)).symm
  exact ⟨rfl, ⟨hsha hne, hword, htrim, fun hmem => hl ((splitWord_suffix rest).subset hmem)⟩, rfl⟩

theorem argEntry_some {action : Text → TodoAction} {rest : Text} {e : TodoEntry} (hr : Trimmed rest)
    (hl : '\n' ∉ rest) (h : argEntry action rest = some e) :
    ArgShape rest ∧ e = entry (action rest) := by
  unfold argEntry at h
  split_ifs at h with hne
  cases h
  exact ⟨⟨hne, hr, hl⟩, rfl⟩

theorem bareEntry_some {action : TodoAction} {rest : Text} {e : TodoEntry}
    (h : bareEntry action rest = some e) : e = entry action := by
  unfold bareEntry at h
  split_ifs at h
  cases h
  rfl

theorem parseFixup_some {rest : Text} {e : TodoEntry} (hr : Trimmed rest) (hl : '\n' ∉ rest)
    (h : parseFixup rest = some e) :
    (e.action = .fixup ∨ e.action = .fixupC) ∧ CommitShape e.sha e.subject
      ∧ (Drifts e → Flagged rest) := by
  unfold parseFixup at h
  cases hflag : (stripPrefix "-C ".toList rest).or (stripPrefix "-c ".toList rest) with
  | some r =>
    rw [hflag] at h
    -- with a flag, the rest of the rest is read; it is still the end of a trimmed line
    have hsuffix : r <:+ rest := by
      rcases Option.or_eq_some_iff.mp hflag with h1 | ⟨-, h2⟩
      · exact ⟨_, (stripPrefix_eq_some.mp h1).symm⟩
      · exact ⟨_, (stripPrefix_eq_some.mp h2).symm⟩
    have hrest := (hr.2.of_suffix hsuffix).trimStart
    have hline : '\n' ∉ trimStart r :=
      fun hmem => hl (hsuffix.subset ((trimStart_suffix r).subset hmem))
    obtain ⟨ha, hshape, -⟩ := commitEntry_some hrest hline h
    refine ⟨.inr ha, hshape, ?_⟩
    rintro ⟨hd, -⟩
    rw [ha] at hd
    cases hd
  | none =>
    rw [hflag] at h
    dsimp only at h
    split_ifs at h with hbare
    obtain ⟨ha, hshape, hsplit⟩ := commitEntry_some hr hl h
    refine ⟨.inl ha, hshape, ?_⟩
    rintro ⟨-, hsha⟩
    rcases (splitWord_spec hr hsplit).2.2.2 with ⟨-, hrest⟩ | ⟨c, gap, hc, -, hrest, -⟩
    · rw [hrest] at hbare
      exact absurd hsha hbare
    · refine ⟨e.sha, c, gap ++ e.subject, hsha, hc, ?_, hrest⟩
      -- a space would have been recognised
      rintro rfl
      rw [Option.or_eq_none_iff] at hflag
      rcases hsha with hsha | hsha
      · have hsome : stripPrefix "-C ".toList rest = some (gap ++ e.subject) :=
          stripPrefix_eq_some.mpr (by rw [hrest, hsha]; rfl)
        rw [hsome] at hflag
        cases hflag.1
      · have hsome : stripPrefix "-c ".toList rest = some (gap ++ e.subject) :=
          stripPrefix_eq_some.mpr (by rw [hrest, hsha]; rfl)
        rw [hsome] at hflag
        cases hflag.2

/-- One arm of the match on the action word. -/
theorem of_ite_some {c P : Prop} [Decidable c] {x y : Option TodoEntry} {e : TodoEntry}
    (h : (if c then x else y) = some e) (hx : c → x = some e → P) (hy : y = some e → P) : P := by
  by_cases hc : c
  · rw [if_pos hc] at h
    exact hx hc h
  · rw [if_neg hc] at h
    exact hy h

/-- An entry read by any other action has the right shape and does not drift. -/
theorem commitEntry_plain {a : TodoAction} {rest : Text} {e : TodoEntry} (hr : Trimmed rest)
    (hl : '\n' ∉ rest) (hne : a ≠ .fixup)
    (hshape : ∀ sha subject, CommitShape sha subject → Shape ⟨a, sha, subject⟩)
    (h : commitEntry a rest = some e) : Shape e ∧ ¬ Drifts e := by
  obtain ⟨rfl, hs, -⟩ := commitEntry_some hr hl h
  exact ⟨hshape e.sha e.subject hs, fun hd => hne hd.1⟩

theorem argEntry_plain {action : Text → TodoAction} {rest : Text} {e : TodoEntry}
    (hr : Trimmed rest) (hl : '\n' ∉ rest) (hne : action rest ≠ .fixup)
    (hshape : ArgShape rest → Shape (entry (action rest)))
    (h : argEntry action rest = some e) : Shape e ∧ ¬ Drifts e := by
  obtain ⟨hs, rfl⟩ := argEntry_some hr hl h
  exact ⟨hshape hs, fun hd => hne hd.1⟩

theorem bareEntry_plain {a : TodoAction} {rest : Text} {e : TodoEntry} (hne : a ≠ .fixup)
    (hshape : Shape (entry a)) (h : bareEntry a rest = some e) : Shape e ∧ ¬ Drifts e := by
  rw [bareEntry_some h]
  exact ⟨hshape, fun hd => hne hd.1⟩

theorem parseWord_some {word rest : Text} {e : TodoEntry} (hr : Trimmed rest) (hl : '\n' ∉ rest)
    (h : parseWord word rest = some e) :
    Shape e ∧ (Drifts e → isWord word "fixup" "f" = true ∧ Flagged rest) := by
  have hplain : Shape e ∧ ¬ Drifts e →
      Shape e ∧ (Drifts e → isWord word "fixup" "f" = true ∧ Flagged rest) :=
    fun he => ⟨he.1, fun hd => absurd hd he.2⟩
  have hcommit : ∀ a, a ≠ .fixup → (∀ sha subject, CommitShape sha subject →
    Shape ⟨a, sha, subject⟩) →
      commitEntry a rest = some e → _ := fun a hne hs h => hplain (commitEntry_plain hr hl hne hs h)
  have harg : ∀ action : Text → TodoAction, action rest ≠ .fixup →
      (ArgShape rest → Shape (entry (action rest))) → argEntry action rest = some e → _ :=
    fun action hne hs h => hplain (argEntry_plain hr hl hne hs h)
  have hbare : ∀ a, a ≠ .fixup → Shape (entry a) → bareEntry a rest = some e → _ :=
    fun a hne hs h => hplain (bareEntry_plain hne hs h)
  unfold parseWord at h
  refine of_ite_some h (fun _ => hcommit .pick (by decide) (fun _ _ hs => hs)) fun h => ?_
  refine of_ite_some h (fun _ => hcommit .reword (by decide) (fun _ _ hs => hs)) fun h => ?_
  refine of_ite_some h (fun _ => hcommit .edit (by decide) (fun _ _ hs => hs)) fun h => ?_
  refine of_ite_some h (fun _ => hcommit .squash (by decide) (fun _ _ hs => hs)) fun h => ?_
  refine of_ite_some h (fun _ => hcommit .drop (by decide) (fun _ _ hs => hs)) fun h => ?_
  refine of_ite_some h (fun hword h => ?_) fun h => ?_
  · obtain ⟨ha, hs, hd⟩ := parseFixup_some hr hl h
    refine ⟨?_, fun hdrift => ⟨hword, hd hdrift⟩⟩
    rcases ha with ha | ha
    · simpa [Shape, ha] using hs
    · simpa [Shape, ha] using hs
  refine of_ite_some h (fun _ => harg .exec (by simp) (fun hs => ⟨hs, rfl⟩)) fun h => ?_
  refine of_ite_some h (fun _ => harg .label (by simp) (fun hs => ⟨hs, rfl⟩)) fun h => ?_
  refine of_ite_some h (fun _ => harg .reset (by simp) (fun hs => ⟨hs, rfl⟩)) fun h => ?_
  refine of_ite_some h (fun _ => harg .merge (by simp) (fun hs => ⟨hs, rfl⟩)) fun h => ?_
  refine of_ite_some h (fun _ => harg .updateRef (by simp) (fun hs => ⟨hs, rfl⟩)) fun h => ?_
  refine of_ite_some h (fun _ => hbare .break (by decide) rfl) fun h => ?_
  refine of_ite_some h (fun _ => hbare .noop (by decide) rfl) fun h => ?_
  cases h

/-- **What is read from a line.** -/
theorem parseLine_some {t : Text} {e : TodoEntry} (ht : Trimmed t) (hl : '\n' ∉ t)
    (h : parseLine t = some e) : Shape e ∧ (Drifts e → FlagDrift t) := by
  obtain ⟨-, hrest, -, hcase⟩ := splitWord_spec ht (Prod.mk.eta (p := splitWord t)).symm
  have hline : '\n' ∉ (splitWord t).2 := fun hmem => hl ((splitWord_suffix t).subset hmem)
  obtain ⟨hshape, hdrift⟩ := parseWord_some hrest hline h
  refine ⟨hshape, ?_⟩
  intro hd
  obtain ⟨hword, hflag⟩ := hdrift hd
  rcases hcase with ⟨hnil, -⟩ | ⟨c, gap, hc, hgap, hsplit, -⟩
  · -- nothing follows the word, so there is no flag
    obtain ⟨flag, c, r, -, -, -, hflag⟩ := hflag
    rw [hnil] at hflag
    simp at hflag
  · exact ⟨_, c, gap, _, hword, hc, hgap, hflag, hsplit⟩

/-! ## What is written -/

theorem newline_not_mem {w : Text} (h : ∀ c ∈ w, isWhitespace c = false) : '\n' ∉ w := by
  intro hmem
  have hws : isWhitespace '\n' = false := h _ hmem
  revert hws
  decide

/-- The sha and the subject as they are written. -/
def commitText (sha subject : Text) : Text := sha ++ if subject = [] then [] else ' ' :: subject

section

variable {sha subject : Text}

theorem CommitShape.splitWord_commitText (h : CommitShape sha subject) :
    splitWord (commitText sha subject) = (sha, subject) := by
  unfold commitText
  split_ifs with hs
  · rw [append_nil, hs]
    exact splitWord_word h.sha_word
  · exact splitWord_space h.sha_word h.subject_trimmed.1

/-- What is written for a commit can stand as an argument. -/
theorem CommitShape.argShape (h : CommitShape sha subject) : ArgShape (commitText sha subject) := by
  have hnl := newline_not_mem h.sha_word
  unfold commitText
  split_ifs with hs
  · rw [append_nil]
    exact ⟨h.sha_ne, trimmed_of_forall h.sha_word, hnl⟩
  · exact ⟨by simp, trimmed_space h.sha_word h.sha_ne h.subject_trimmed hs,
      by simp [hnl, h.subject_line]⟩

theorem CommitShape.commitEntry_commitText (h : CommitShape sha subject) (a : TodoAction) :
    commitEntry a (commitText sha subject) =
      some { action := a, sha, subject } := by
  rw [commitEntry, if_neg h.argShape.ne, h.splitWord_commitText]

end

/-- The line holds no newline and does not end in `\r`, so that it is read back as it is. -/
structure OneLine (l : Text) : Prop where
  newline : '\n' ∉ l
  cr : ∀ c ∈ l.getLast?, (c == '\r') = false

theorem ArgShape.oneLine {t : Text} (h : ArgShape t) : OneLine t := by
  refine ⟨h.line, ?_⟩
  intro c hc
  have hws := h.trimmed.2 c hc
  by_contra hcr
  rw [show c = '\r' by simpa using hcr] at hws
  revert hws
  decide

/-- Reading a line that has no white space to trim. -/
theorem readLine_trimmed {t : Text} (h : ArgShape t) (hnoise : isNoise t = false) :
    readLine t = some ((parseLine t).getD (entry (.unknown t))) := by
  unfold readLine
  dsimp only
  rw [trimEndMatches_eq_self h.oneLine.cr, h.trimmed.trim_eq, hnoise]
  rfl

/-- An action word is a word, and no comment. -/
def isActionWord (w : Text) : Bool :=
  w != [] && w.all (fun c => !isWhitespace c) && w.head? != some '#'

theorem isActionWord_iff {w : Text} :
    isActionWord w = true ↔ w ≠ [] ∧ (∀ c ∈ w, isWhitespace c = false) ∧ w.head? ≠ some '#' := by
  simp [isActionWord, and_assoc]

/-- **Reading back a word and its argument.** -/
theorem readLine_space {w arg : Text} (hw : isActionWord w = true) (ha : ArgShape arg) :
    OneLine (w ++ ' ' :: arg) ∧ readLine (w ++ ' ' :: arg)
          = some ((parseWord w arg).getD (entry (.unknown (w ++ ' ' :: arg)))) := by
  obtain ⟨hne, hws, hhash⟩ := isActionWord_iff.mp hw
  have hshape : ArgShape (w ++ ' ' :: arg) :=
    ⟨by simp, trimmed_space hws hne ha.trimmed ha.ne, by simp [newline_not_mem hws, ha.line]⟩
  have hnoise : isNoise (w ++ ' ' :: arg) = false := by
    obtain ⟨c, w, rfl⟩ := exists_cons_of_ne_nil hne
    have hc : c ≠ '#' := by simpa using hhash
    simp [isNoise, startsWith, List.isPrefixOf, Ne.symm hc]
  refine ⟨hshape.oneLine, ?_⟩
  rw [readLine_trimmed hshape hnoise, parseLine, splitWord_space hws ha.trimmed.1]

theorem parseFixup_flag {sha subject : Text} (h : CommitShape sha subject) :
    parseFixup ("-C".toList ++ ' ' :: commitText sha subject)
      = some { action := .fixupC, sha, subject } := by
  have hstrip : stripPrefix "-C ".toList ("-C".toList ++ ' ' :: commitText sha subject)
      = some (commitText sha subject) := stripPrefix_eq_some.mpr rfl
  unfold parseFixup
  rw [hstrip]
  show commitEntry .fixupC (trimStart (commitText sha subject)) = _
  rw [trimStart_eq_self h.argShape.trimmed.1]
  exact h.commitEntry_commitText .fixupC

theorem IsFlag.length {flag : Text} (h : IsFlag flag) : flag.length = 2 := by
  rcases h with rfl | rfl <;> rfl

theorem IsFlag.word {flag : Text} (h : IsFlag flag) : ∀ c ∈ flag, isWhitespace c = false := by
  have hall : flag.all (fun c => !isWhitespace c) = true := by
    rcases h with rfl | rfl <;> decide
  simpa using all_eq_true.mp hall

/-- A sha that is not a flag is read as one. -/
theorem parseFixup_sha {sha subject : Text} (h : CommitShape sha subject) (hflag : ¬ IsFlag sha) :
    parseFixup (commitText sha subject)
      = some { action := .fixup, sha, subject } := by
  have hsplit := h.splitWord_commitText
  have hnone : ∀ flag : Text, IsFlag flag →
      stripPrefix (flag ++ [' ']) (commitText sha subject) = none := by
    intro flag hmem
    rw [Option.eq_none_iff_forall_ne_some]
    intro r hr
    have heq := stripPrefix_eq_some.mp hr
    rw [append_assoc] at heq
    rw [heq, splitWord, singleton_append, splitOnceP_append hmem.word rfl] at hsplit
    have hsha : flag = sha := congrArg Prod.fst hsplit
    exact hflag (hsha ▸ hmem)
  have hbare : ¬ IsFlag (commitText sha subject) := by
    intro hbare
    rw [splitWord_word hbare.word] at hsplit
    have hsha : commitText sha subject = sha := congrArg Prod.fst hsplit
    exact hflag (hsha ▸ hbare)
  unfold parseFixup
  rw [show "-C ".toList = "-C".toList ++ [' '] from rfl, hnone _ (.inl rfl),
    show "-c ".toList = "-c".toList ++ [' '] from rfl, hnone _ (.inr rfl)]
  show (if IsFlag (commitText sha subject) then none
    else commitEntry .fixup (commitText sha subject)) = _
  rw [if_neg hbare]
  exact h.commitEntry_commitText .fixup

/-- Written back, the name of the flag is followed by a space or by nothing. -/
theorem not_flagged_commitText {sha : Text} (subject : Text) (h : IsFlag sha) :
    ¬ Flagged (commitText sha subject) := by
  rintro ⟨flag, c, r, hflag, -, hc, heq⟩
  -- both flags have two letters, so what follows them is the same on both sides
  have htail : (if subject = [] then [] else ' ' :: subject) = c :: r := by
    exact (append_inj heq (h.length.trans hflag.length.symm)).2
  split_ifs at htail
  exact hc (List.cons.inj htail).1.symm

/-- The line of an entry can be written and gives the entry back. -/
def Rereads (e : TodoEntry) : Prop := OneLine (writeEntry e) ∧ readLine (writeEntry e) = some e

theorem CommitShape.rereads {a : TodoAction} {w sha subject : Text} (h : CommitShape sha subject)
    (hw : isActionWord w = true) (hparse : parseWord w = commitEntry a) :
    OneLine (w ++ ' ' :: commitText sha subject) ∧ readLine (w ++ ' ' :: commitText sha subject)
          = some { action := a, sha, subject } := by
  obtain ⟨hline, hread⟩ := readLine_space hw h.argShape
  rw [hread, hparse, h.commitEntry_commitText]
  exact ⟨hline, rfl⟩

theorem ArgShape.rereads {action : Text → TodoAction} {w arg : Text} (h : ArgShape arg)
    (hw : isActionWord w = true) (hparse : parseWord w = argEntry action) :
    OneLine (w ++ ' ' :: arg) ∧ readLine (w ++ ' ' :: arg) = some (entry (action arg)) := by
  obtain ⟨hline, hread⟩ := readLine_space hw h
  rw [hread, hparse, argEntry, if_neg h.ne]
  exact ⟨hline, rfl⟩

theorem fixup_rereads {sha subject : Text} (h : CommitShape sha subject) (hflag : ¬ IsFlag sha) :
    Rereads { action := .fixup, sha, subject } := by
  obtain ⟨hline, hread⟩ := readLine_space (w := "fixup".toList) rfl h.argShape
  refine ⟨hline, hread.trans ?_⟩
  rw [show parseWord "fixup".toList = parseFixup from rfl, parseFixup_sha h hflag]
  rfl

theorem fixupC_rereads {sha subject : Text} (h : CommitShape sha subject) :
    Rereads { action := .fixupC, sha, subject } := by
  have harg := h.argShape
  have hflag : ArgShape ("-C".toList ++ ' ' :: commitText sha subject) :=
    ⟨by simp, trimmed_space (IsFlag.word (.inl rfl)) (by simp) harg.trimmed harg.ne,
      by simp [harg.line]⟩
  obtain ⟨hline, hread⟩ := readLine_space (w := "fixup".toList) rfl hflag
  refine ⟨hline, hread.trans ?_⟩
  rw [show parseWord "fixup".toList = parseFixup from rfl, parseFixup_flag h]
  rfl

/-- **What was read is read back**, unless it drifts. -/
theorem Shape.rereads {e : TodoEntry} (h : Shape e) (hdrift : ¬ Drifts e) : Rereads e := by
  obtain ⟨action, sha, subject⟩ := e
  cases action with
  | pick => exact CommitShape.rereads h (w := "pick".toList) rfl rfl
  | reword => exact CommitShape.rereads h (w := "reword".toList) rfl rfl
  | edit => exact CommitShape.rereads h (w := "edit".toList) rfl rfl
  | squash => exact CommitShape.rereads h (w := "squash".toList) rfl rfl
  | drop => exact CommitShape.rereads h (w := "drop".toList) rfl rfl
  | fixup => exact fixup_rereads h (fun hflag => hdrift ⟨rfl, hflag⟩)
  | fixupC => exact fixupC_rereads h
  | exec arg =>
    obtain ⟨harg, he⟩ := h
    rw [he]
    exact harg.rereads (w := "exec".toList) rfl rfl
  | label arg =>
    obtain ⟨harg, he⟩ := h
    rw [he]
    exact harg.rereads (w := "label".toList) rfl rfl
  | reset arg =>
    obtain ⟨harg, he⟩ := h
    rw [he]
    exact harg.rereads (w := "reset".toList) rfl rfl
  | merge arg =>
    obtain ⟨harg, he⟩ := h
    rw [he]
    exact harg.rereads (w := "merge".toList) rfl rfl
  | updateRef arg =>
    obtain ⟨harg, he⟩ := h
    rw [he]
    exact harg.rereads (w := "update-ref".toList) rfl rfl
  | «break» =>
    rw [show _ = entry .break from h]
    exact ⟨⟨by decide, by rintro c ⟨⟩; rfl⟩, rfl⟩
  | noop =>
    rw [show _ = entry .noop from h]
    exact ⟨⟨by decide, by rintro c ⟨⟩; rfl⟩, rfl⟩
  | unknown line => cases h

/-- A fixup that drifts is written on one line but not read back. -/
theorem Shape.not_rereads {e : TodoEntry} (h : Shape e) (hdrift : Drifts e) :
    OneLine (writeEntry e) ∧ readLine (writeEntry e) ≠ some e := by
  obtain ⟨action, sha, subject⟩ := e
  obtain ⟨rfl, hflag⟩ : action = .fixup ∧ IsFlag sha := hdrift
  have hshape : CommitShape sha subject := h
  have harg := hshape.argShape
  obtain ⟨hline, hread⟩ := readLine_space (w := "fixup".toList) rfl harg
  refine ⟨hline, fun heq => ?_⟩
  replace heq := Option.some.inj (hread.symm.trans heq)
  rw [show parseWord "fixup".toList = parseFixup from rfl] at heq
  cases hp : parseFixup (commitText sha subject) with
  | none =>
    rw [hp] at heq
    cases heq
  | some e =>
    rw [hp] at heq
    apply not_flagged_commitText subject hflag
    apply (parseFixup_some harg.trimmed harg.line hp).2.2
    rw [show e = _ from heq]
    exact ⟨rfl, hflag⟩

/-! ## One line -/

/-- A flag that is followed by other white space is read as the sha of a commit. -/
theorem parseFixup_flagged {flag r : Text} {c : Char} (hflag : IsFlag flag)
    (hc : isWhitespace c = true) (hsp : c ≠ ' ') :
    parseFixup (flag ++ c :: r)
      = some { action := .fixup, sha := flag, subject := trimStart r } := by
  have hnone : (stripPrefix "-C ".toList (flag ++ c :: r)).or
      (stripPrefix "-c ".toList (flag ++ c :: r)) = none := by
    have hspace : (' ' == c) = false := by simpa using Ne.symm hsp
    rw [Option.or_eq_none_iff, stripPrefix_eq_none, stripPrefix_eq_none]
    rcases hflag with rfl | rfl
    · simp [startsWith, List.isPrefixOf, hspace]
    · simp [startsWith, List.isPrefixOf, hspace]
  have hlong : ¬ IsFlag (flag ++ c :: r) := by
    intro h
    have hlen := h.length
    rw [length_append, hflag.length, length_cons] at hlen
    omega
  unfold parseFixup
  rw [hnone]
  show (if IsFlag (flag ++ c :: r) then none else commitEntry .fixup (flag ++ c :: r)) = _
  rw [if_neg hlong, commitEntry, if_neg (by simp), splitWord, splitOnceP_append hflag.word hc]

/-- Every line with the flag and white space that is no space is read as a commit named `-C`. -/
theorem FlagDrift.parseLine {t : Text} (h : FlagDrift t) :
    isNoise t = false ∧ ∃ e, parseLine t = some e ∧ Drifts e := by
  obtain ⟨word, c, gap, rest, hword, hc, hgap, ⟨flag, d, r, hflag, hd, hsp, rfl⟩, rfl⟩ := h
  have hactions : isActionWord word = true ∧ parseWord word = parseFixup := by
    rcases Bool.or_eq_true_iff.mp hword with hw | hw
    · rw [eq_of_beq hw]
      exact ⟨rfl, rfl⟩
    · rw [eq_of_beq hw]
      exact ⟨rfl, rfl⟩
  obtain ⟨hne, hws, hhash⟩ := isActionWord_iff.mp hactions.1
  constructor
  · obtain ⟨x, word, rfl⟩ := exists_cons_of_ne_nil hne
    have hx : x ≠ '#' := by simpa using hhash
    simp [isNoise, startsWith, List.isPrefixOf, Ne.symm hx]
  · have hhead : ∀ x ∈ (flag ++ d :: r).head?, isWhitespace x = false := by
      intro x hx
      rcases hflag with rfl | rfl
      · cases hx
        rfl
      · cases hx
        rfl
    refine ⟨{ action := .fixup, sha := flag, subject := trimStart r }, ?_, rfl, hflag⟩
    rw [Rebase.parseLine, splitWord_append hws hc hgap hhead]
    show parseWord word (flag ++ d :: r) = _
    rw [hactions.2]
    exact parseFixup_flagged hflag hd hsp

theorem isWhitespace_of_cr (c : Char) (h : (c == '\r') = true) : isWhitespace c = true := by
  rw [eq_of_beq h]
  rfl

/-- **One line**: its entry is written on one line, and read back exactly when the line does not
drift. -/
theorem readLine_some {raw : Text} {e : TodoEntry} (hl : '\n' ∉ raw) (h : readLine raw = some e) :
    OneLine (writeEntry e) ∧ (readLine (writeEntry e) = some e ↔ ¬ FlagDrift (trim raw)) := by
  have htrim := trim_trimEndMatches isWhitespace_of_cr raw
  have hinitial := trimEndMatches_isPrefix (· == '\r') raw
  unfold readLine at h
  dsimp only at h
  rw [htrim] at h
  split_ifs at h with hnoise
  cases hp : parseLine (trim raw) with
  | some e' =>
    rw [hp] at h
    obtain rfl : e' = e := Option.some.inj h
    have hline : '\n' ∉ trim raw := by
      intro hmem
      apply hl
      exact (trimStart_suffix raw).subset ((trimEndMatches_isPrefix isWhitespace _).subset hmem)
    obtain ⟨hshape, hdrift⟩ := parseLine_some (trimmed_trim raw) hline hp
    by_cases hd : Drifts e'
    · obtain ⟨hone, hne⟩ := hshape.not_rereads hd
      exact ⟨hone, iff_of_false hne (not_not_intro (hdrift hd))⟩
    · obtain ⟨hone, heq⟩ := hshape.rereads hd
      refine ⟨hone, iff_of_true heq ?_⟩
      intro hf
      obtain ⟨-, e'', hp', hd'⟩ := hf.parseLine
      rw [hp] at hp'
      cases hp'
      exact hd hd'
  | none =>
    rw [hp] at h
    obtain rfl : entry (.unknown (trimEndMatches (· == '\r') raw)) = e := Option.some.inj h
    have hlast : ∀ c ∈ (trimEndMatches (· == '\r') raw).getLast?, (c == '\r') = false := by
      intro c hc
      have hhead := List.head?_dropWhile_not (· == '\r') raw.reverse
      rw [trimEndMatches, List.getLast?_reverse] at hc
      rw [Option.mem_def.mp hc] at hhead
      simpa using hhead
    refine ⟨⟨fun hmem => hl (hinitial.subset hmem), hlast⟩, iff_of_true ?_ ?_⟩
    · -- the line is kept as it is, and not understood again
      show readLine (trimEndMatches (· == '\r') raw) = _
      unfold readLine
      dsimp only
      rw [trimEndMatches_eq_self hlast, htrim, if_neg hnoise, hp]
      rfl
    · intro hf
      obtain ⟨-, e', hp', -⟩ := hf.parseLine
      rw [hp] at hp'
      cases hp'

theorem readLine_eq_none {raw : Text} : readLine raw = none ↔ isNoise (trim raw) = true := by
  unfold readLine
  dsimp only
  rw [trim_trimEndMatches isWhitespace_of_cr]
  split_ifs with hnoise
  · simp [hnoise]
  · simp [hnoise]

/-! ## The whole file -/

theorem OneLine.stripSuffix_cr {l : Text} (h : OneLine l) : stripSuffix ['\r'] l = none := by
  rw [Option.eq_none_iff_forall_ne_some]
  intro r hr
  obtain ⟨q, hq, heq⟩ := List.dropSuffix?_eq_some_iff.mp hr
  rw [eq_of_beq heq] at hq
  have hlast : '\r' ∈ l.getLast? := by simp [hq]
  have hcr := h.cr _ hlast
  simp at hcr

/-- Written entries are read line by line. -/
theorem parseTodo_serializeTodo {es : List TodoEntry} (h : ∀ e ∈ es, OneLine (writeEntry e)) :
    parseTodo (serializeTodo es) = es.filterMap (fun e => readLine (writeEntry e)) := by
  unfold parseTodo serializeTodo
  have hlines : lines (unlines (es.map writeEntry)) = es.map writeEntry := by
    apply lines_unlines
    · intro l hl
      obtain ⟨e, he, rfl⟩ := mem_map.mp hl
      exact (h e he).newline
    · intro l hl
      obtain ⟨e, he, rfl⟩ := mem_map.mp hl
      exact (h e he).stripSuffix_cr
  rw [hlines, filterMap_map]
  rfl

theorem filterMap_eq_self {α : Type} {f : α → Option α} {l : List α} :
    l.filterMap f = l ↔ ∀ x ∈ l, f x = some x := by
  induction l with
  | nil => simp
  | cons a l ih =>
    cases hf : f a with
    | none =>
      rw [filterMap_cons_none hf]
      have hne : l.filterMap f ≠ a :: l := by
        intro heq
        have hlen := congrArg List.length heq
        have hle := length_filterMap_le f l
        simp only [length_cons] at hlen
        omega
      simp [hne, hf]
    | some b =>
      rw [filterMap_cons_some hf]
      simp [hf, ih]

/-- Rewriting the todo is stable: every line that is neither blank nor a comment has one entry, and
what is written back is read as the same entries. -/
def RewriteStable (text : Text) : Prop :=
  (parseTodo text).length = ((lines text).filter (fun l => !isNoise (trim l))).length
    ∧ parseTodo (serializeTodo (parseTodo text)) = parseTodo text

instance (text : Text) : Decidable (RewriteStable text) := inferInstanceAs (Decidable (_ ∧ _))

theorem length_parseTodo (text : Text) :
    (parseTodo text).length = ((lines text).filter (fun l => !isNoise (trim l))).length := by
  unfold parseTodo
  rw [length_filterMap_eq_countP, countP_eq_length_filter]
  congr 2
  funext l
  cases hr : readLine l with
  | none => simp [readLine_eq_none.mp hr]
  | some e =>
    have hne : isNoise (trim l) ≠ true := by
      intro hnoise
      rw [readLine_eq_none.mpr hnoise] at hr
      cases hr
    simp [hne]

/-- **Rewriting is stable exactly when no line drifts**: unless a `fixup` line has its flag followed
by white space other than a space. -/
theorem rewriteStable_iff (text : Text) :
    RewriteStable text ↔ ∀ line ∈ lines text, ¬ FlagDrift (trim line) := by
  have hone : ∀ e ∈ parseTodo text, OneLine (writeEntry e) := by
    intro e he
    obtain ⟨line, hline, hread⟩ := mem_filterMap.mp he
    exact (readLine_some (not_mem_of_mem_lines hline) hread).1
  rw [RewriteStable, and_iff_right (length_parseTodo text), parseTodo_serializeTodo hone,
    filterMap_eq_self]
  constructor
  · intro h line hline
    cases hread : readLine line with
    | none =>
      intro hdrift
      rw [readLine_eq_none, hdrift.parseLine.1] at hread
      cases hread
    | some e =>
      apply (readLine_some (not_mem_of_mem_lines hline) hread).2.mp
      exact h e (mem_filterMap.mpr ⟨line, hline, hread⟩)
  · intro h e he
    obtain ⟨line, hline, hread⟩ := mem_filterMap.mp he
    exact (readLine_some (not_mem_of_mem_lines hline) hread).2.mpr (h line hline)

/-- A tab after the flag. -/
theorem not_rewriteStable_tab : ¬ RewriteStable "fixup -C\tabc".toList := by
  decide

end Thegn.Rebase
