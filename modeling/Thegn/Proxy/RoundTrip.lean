import Thegn.Proxy.Transcript
import Thegn.Resume.Structure

set_option autoImplicit false

/-! # A translation keeps the conversation

An Anthropic request that is translated to OpenAI and back asks the same thing: its system text,
settings and tool definitions come back, and so does its transcript. The messages are not the same:
each tool result becomes a message of its own, and the text blocks of a message become one.
-/

namespace Thegn.Proxy

open Text Value List

/-! ## Fields of the objects that are built -/

/-- The fields of an object that have a value. -/
def present (fields : List (Text × Option Value)) : List (Text × Value) :=
  fields.filterMap fun f => f.2.map fun v => (f.1, v)

theorem lookup_present_none {fields : List (Text × Option Value)} {key : Text}
    (h : key ∉ fields.map (·.1)) : lookup key (present fields) = none := by
  induction fields with
  | nil => rfl
  | cons f fields ih =>
    obtain ⟨k, value⟩ := f
    rw [map_cons, mem_cons, not_or] at h
    cases value with
    | none => exact ih h.2
    | some v =>
      change (if k = key then some v else lookup key (present fields)) = none
      rw [if_neg (Ne.symm h.1)]
      exact ih h.2

/-- A field of an object whose keys differ. -/
theorem get_object {fields : List (Text × Option Value)} (h : (fields.map (·.1)).Nodup)
    (key : Text) : (object fields).get key = (fields.find? fun f => f.1 = key).bind (·.2) := by
  change lookup key (present fields) = _
  induction fields with
  | nil => rfl
  | cons f fields ih =>
    obtain ⟨k, value⟩ := f
    rw [map_cons, nodup_cons] at h
    rw [List.find?_cons]
    by_cases hk : k = key
    · rw [decide_eq_true hk]
      cases value with
      | none =>
        have hnone : lookup key (present fields) = none := lookup_present_none (hk ▸ h.1)
        exact hnone
      | some v =>
        change (if k = key then some v else lookup key (present fields)) = some v
        rw [if_pos hk]
    · rw [decide_eq_false hk]
      cases value with
      | none => exact ih h.2
      | some v =>
        change (if k = key then some v else lookup key (present fields)) = _
        rw [if_neg hk]
        exact ih h.2

def openaiKeys : List Text :=
  ["max_tokens".toList, "messages".toList, "model".toList, "stop".toList, "stream".toList,
    "temperature".toList, "tool_choice".toList, "tools".toList, "top_p".toList]

def anthropicKeys : List Text :=
  ["max_tokens".toList, "messages".toList, "model".toList, "stop_sequences".toList, "stream".toList,
    "system".toList, "temperature".toList, "tool_choice".toList, "tools".toList, "top_p".toList]

theorem openaiKeys_nodup : openaiKeys.Nodup := by decide

theorem anthropicKeys_nodup : anthropicKeys.Nodup := by decide

theorem assistantMessage_keys : ["content".toList, "role".toList, "tool_calls".toList].Nodup := by
  decide

theorem assistantMessage_role (text : Text) (calls : List Value) :
    (assistantMessage text calls).get "role".toList = some (.str "assistant".toList) :=
  get_object (by exact assistantMessage_keys) _

theorem assistantMessage_content (text : Text) (calls : List Value) :
    (assistantMessage text calls).get "content".toList = some (.str text) :=
  get_object (by exact assistantMessage_keys) _

theorem assistantMessage_calls (text : Text) (calls : List Value) :
    (assistantMessage text calls).get "tool_calls".toList = nonEmptyArray calls :=
  get_object (by exact assistantMessage_keys) _

/-- An array that is left out when it is empty reads as the empty list. -/
theorem nonEmptyArray_getD (items : List Value) :
    ((nonEmptyArray items).bind asArray).getD [] = items := by
  unfold nonEmptyArray
  split_ifs with h
  · rw [h]
    rfl
  · rfl

/-! ## The turns, translated -/

/-- The OpenAI messages of a turn. -/
def Turn.openai (serde : SerdeJson) : Turn → List Value
  | .userText s => [message "user".toList (.str s)]
  | .userBlocks results texts =>
    results.map (fun r => toolMessage r.1 r.2)
      ++ (if texts = [] then [] else [message "user".toList (.str (join ['\n'] texts))])
  | .assistantText s => [message "assistant".toList (.str s)]
  | .assistantBlocks texts uses =>
    [assistantMessage (join ['\n'] texts) (uses.map fun u =>
      toolCall u.id u.name (serde.print u.input))]

/-- The Anthropic messages that a turn comes back as. -/
def Turn.back : Turn → List Value
  | .userText s => [message "user".toList (.arr [textBlock s])]
  | .userBlocks results texts =>
    results.map (fun r => message "user".toList (.arr [toolResultBlock r.1 r.2]))
      ++ (if texts = [] then [] else [message "user".toList (.arr [textBlock (join ['\n'] texts)])])
  | .assistantText s => [message "assistant".toList (.arr [textBlock s])]
  | .assistantBlocks texts uses =>
    [message "assistant".toList (.arr (Proxy.assistantBlocks (join ['\n'] texts)
      (uses.map fun u => toolUseBlock u.id u.name u.input)))]

variable {serde : SerdeJson} {m : Value} {t : Turn}

/-- Blocks that all give something. -/
theorem filterMap_of_forall₂ {α β : Type} {R : Value → α → Prop} {f : Value → Option β} {g : α → β}
    {bs : List Value}
    {xs : List α} (h : List.Forall₂ R bs xs) (hf : ∀ b x, R b x → f b = some (g x)) :
    bs.filterMap f = xs.map g := by
  induction h with
  | nil => rfl
  | cons hb _ ih => rw [filterMap_cons_some (hf _ _ hb), ih, map_cons]

/-- Blocks that give nothing. -/
theorem filterMap_nil_of_forall₂ {α β : Type} {R : Value → α → Prop} {f : Value → Option β}
    {bs : List Value}
    {xs : List α} (h : List.Forall₂ R bs xs) (hf : ∀ b x, R b x → f b = none) :
    bs.filterMap f = [] := by
  induction h with
  | nil => rfl
  | cons hb _ ih => rw [filterMap_cons_none (hf _ _ hb), ih]

theorem exists_of_forall₂ {α β : Type} {R : α → β → Prop} {bs : List α} {xs : List β}
    (h : List.Forall₂ R bs xs) {x : β} (hx : x ∈ xs) : ∃ b, R b x := by
  induction h with
  | nil => cases hx
  | cons hb _ ih =>
    rcases mem_cons.mp hx with rfl | hx
    · exact ⟨_, hb⟩
    · exact ih hx

theorem IsText.blockText {b : Value} {t : Text} (h : IsText b t) : blockText b = some t := by
  unfold Proxy.blockText nonEmptyAt
  rw [if_pos h.1, h.2.1, Option.filter_some, if_pos (decide_eq_true h.2.2)]

/-- A block of another type. -/
theorem type_ne {b : Value} {type other : Text} (h : b.strAt "type".toList = some type)
    (hne : type ≠ other) : b.strAt "type".toList ≠ some other := by
  rw [h]
  exact fun heq => hne (Option.some_inj.mp heq)

theorem IsUse.blockCall {b : Value} {u : ToolUse} (h : IsUse b u) :
    blockCall serde b = some (toolCall u.id u.name (serde.print u.input)) := by
  have hnull : u.input.isNull = false := by
    have hobject := h.object
    cases hi : u.input with
    | obj fields => rfl
    | null | bool | num | str | arr =>
      rw [hi] at hobject
      cases hobject
  unfold Proxy.blockCall toolArgs
  rw [if_pos h.type, h.id, h.name, h.input]
  simp only [Option.getD_some, hnull, Bool.false_eq_true, if_false]

theorem IsResult.blockResult {b : Value} {r : Text × Text} (h : IsResult b r) :
    blockResult b = some (toolMessage r.1 r.2) := by
  unfold Proxy.blockResult
  rw [if_pos h.type, h.id, h.text]
  rfl

theorem IsText.blockCall {b : Value} {t : Text} (h : IsText b t) : blockCall serde b = none :=
  if_neg (type_ne h.1 (by decide))

theorem IsText.blockResult {b : Value} {t : Text} (h : IsText b t) : blockResult b = none :=
  if_neg (type_ne h.1 (by decide))

theorem IsUse.blockText {b : Value} {u : ToolUse} (h : IsUse b u) : blockText b = none :=
  if_neg (type_ne h.type (by decide))

theorem IsResult.blockText {b : Value} {r : Text × Text} (h : IsResult b r) : blockText b = none :=
  if_neg (type_ne h.type (by decide))

/-- What a turn is translated to. -/
theorem IsTurn.openai (h : IsTurn m t) : anthropicMessageToOpenai serde m = t.openai serde := by
  unfold anthropicMessageToOpenai
  cases h with
  | userText hrole hcontent =>
    rw [hrole, hcontent]
    rfl
  | assistantText hrole hcontent =>
    rw [hrole, hcontent]
    rfl
  | userBlocks hrole hcontent hrs hts =>
    rw [hrole, hcontent]
    dsimp only [Option.getD_some]
    rw [if_neg (by decide), filterMap_append, filterMap_append,
      filterMap_of_forall₂ hrs fun _ _ h => h.blockResult,
      filterMap_nil_of_forall₂ hts fun _ _ h => h.blockResult,
      filterMap_nil_of_forall₂ hrs fun _ _ h => h.blockText,
      filterMap_of_forall₂ hts fun _ _ h => h.blockText, map_id', append_nil, nil_append]
    rfl
  | assistantBlocks hrole hcontent hts hus =>
    rw [hrole, hcontent]
    dsimp only [Option.getD_some]
    rw [if_pos rfl, filterMap_append, filterMap_append,
      filterMap_of_forall₂ hts fun _ _ h => h.blockText,
      filterMap_nil_of_forall₂ hus fun _ _ h => h.blockText,
      filterMap_nil_of_forall₂ hts fun _ _ h => h.blockCall,
      filterMap_of_forall₂ hus fun _ _ h => h.blockCall, map_id', append_nil, nil_append]
    rfl

/-! ## The turns, translated back -/

theorem toolCallBlock_toolCall (id name args : Text) :
    toolCallBlock serde (toolCall id name args) =
      some (toolUseBlock id name (openaiToolInput serde args), id) := rfl

/-- The input of a call is printed as an object and read back. -/
def SerdeJson.Inverse (serde : SerdeJson) (input : Value) : Prop :=
  serde.parse (serde.print input) = some input ∧ trim (serde.print input) ≠ []

theorem openaiToolInput_print {input : Value} (h : serde.Inverse input)
    (hobject : input.isObject = true) : openaiToolInput serde (serde.print input) = input := by
  unfold openaiToolInput
  rw [if_neg h.2, h.1]
  dsimp only
  rw [if_pos hobject]

theorem back_user (emitted : Finset Text) (s : Text) :
    openaiMessageToAnthropic serde emitted (message "user".toList (.str s))
      = ([message "user".toList (.arr [textBlock s])], emitted) := rfl

theorem back_tool {emitted : Finset Text} {id : Text} (hne : id ≠ []) (hmem : id ∈ emitted)
    (text : Text) :
    openaiMessageToAnthropic serde emitted (toolMessage id text)
      = ([message "user".toList (.arr [toolResultBlock id text])], emitted) := by
  have hresult : toolResultMessage emitted id text =
    message "user".toList (.arr [toolResultBlock id text]) := if_pos ⟨hne, hmem⟩
  rw [← hresult]
  rfl

theorem back_assistant_text (emitted : Finset Text) {s : Text} (hs : s ≠ []) :
    openaiMessageToAnthropic serde emitted (message "assistant".toList (.str s))
      = ([message "assistant".toList (.arr [textBlock s])], emitted) := by
  have hblocks : assistantBlocks s [] = [textBlock s] := by
    unfold assistantBlocks
    rw [if_neg hs]
    rfl
  rw [← hblocks]
  change ([message "assistant".toList (.arr (assistantBlocks s []))], emitted ∪ ∅) = _
  rw [Finset.union_empty]

theorem back_assistant (emitted : Finset Text) (text : Text) {uses : List ToolUse}
    (huses : ∀ u ∈ uses, u.id ≠ [] ∧ u.input.isObject = true ∧ serde.Inverse u.input) :
    openaiMessageToAnthropic serde emitted
        (assistantMessage text (uses.map fun u => toolCall u.id u.name (serde.print u.input)))
      = ([message "assistant".toList
        (.arr (assistantBlocks text (uses.map fun u => toolUseBlock u.id u.name u.input)))],
        emitted ∪ (uses.map (·.id)).toFinset) := by
  have hrole : (assistantMessage text (uses.map fun u =>
    toolCall u.id u.name (serde.print u.input))).strAt "role".toList = some "assistant".toList := by
    unfold strAt
    rw [assistantMessage_role]
    rfl
  have hcalls :
    ((assistantMessage text (uses.map fun u => toolCall u.id u.name (serde.print u.input))).arrayAt
      "tool_calls".toList).getD [] = uses.map fun u =>
        toolCall u.id u.name (serde.print u.input) := by
    unfold arrayAt
    rw [assistantMessage_calls, nonEmptyArray_getD]
  have hblocks : (uses.map fun u => toolCall u.id u.name (serde.print u.input)).filterMap
    (toolCallBlock serde) = uses.map fun u => (toolUseBlock u.id u.name u.input, u.id) := by
    rw [filterMap_map, ← filterMap_eq_map]
    refine filterMap_congr (fun u hu => ?_)
    obtain ⟨-, hobject, hinverse⟩ := huses u hu
    rw [Function.comp_apply, Function.comp_apply, toolCallBlock_toolCall,
      openaiToolInput_print hinverse hobject]
  have hids : (((uses.map fun u => (toolUseBlock u.id u.name u.input, u.id)).map (·.2)).filter
    (· ≠ [])).toFinset = (uses.map (·.id)).toFinset := by
    rw [map_map, filter_eq_self.mpr]
    · rfl
    · intro id hid
      obtain ⟨u, hu, rfl⟩ := mem_map.mp hid
      exact decide_eq_true (huses u hu).1
  unfold openaiMessageToAnthropic
  rw [hrole, assistantMessage_content, hcalls, hblocks]
  dsimp only [Option.getD_some]
  rw [if_neg (by decide), if_pos rfl, hids, map_map]
  rfl

/-- Tool messages of calls that were seen. -/
theorem back_results {emitted : Finset Text} {results : List (Text × Text)} (rest : List Value)
    (h : ∀ r ∈ results, r.1 ≠ [] ∧ r.1 ∈ emitted) :
    openaiMessagesToAnthropic serde emitted (results.map (fun r => toolMessage r.1 r.2) ++ rest)
      = results.map (fun r => message "user".toList (.arr [toolResultBlock r.1 r.2]))
        ++ openaiMessagesToAnthropic serde emitted rest := by
  induction results with
  | nil => rfl
  | cons r results ih =>
    obtain ⟨hne, hmem⟩ := h r (.head _)
    rw [map_cons, cons_append, openaiMessagesToAnthropic, back_tool hne hmem]
    dsimp only
    rw [ih fun r' hr' => h r' (mem_cons_of_mem _ hr')]
    rfl

/-- The turn is one that the translators keep: its strings are not empty, its results answer calls
that were seen, and its inputs are read back. -/
structure Turn.Kept (serde : SerdeJson) (emitted : Finset Text) (t : Turn) : Prop where
  results : ∀ r ∈ t.results, r.1 ≠ [] ∧ r.1 ∈ emitted
  uses : ∀ u ∈ t.uses, u.id ≠ [] ∧ u.input.isObject = true ∧ serde.Inverse u.input
  text : ∀ s, t = .assistantText s → s ≠ []

theorem Turn.Kept.back {emitted : Finset Text} (h : t.Kept serde emitted) (rest : List Value) :
    openaiMessagesToAnthropic serde emitted (t.openai serde ++ rest)
      = t.back ++ openaiMessagesToAnthropic serde (emitted ∪ (t.uses.map (·.id)).toFinset)
        rest := by
  cases t with
  | userText s =>
    change openaiMessagesToAnthropic serde emitted (message "user".toList (.str s) :: rest)
      = [_] ++ openaiMessagesToAnthropic serde (emitted ∪ ∅) rest
    rw [openaiMessagesToAnthropic, back_user, Finset.union_empty]
  | assistantText s =>
    change openaiMessagesToAnthropic serde emitted (message "assistant".toList (.str s) :: rest)
      = [_] ++ openaiMessagesToAnthropic serde (emitted ∪ ∅) rest
    rw [openaiMessagesToAnthropic, back_assistant_text emitted (h.text s rfl), Finset.union_empty]
  | userBlocks results texts =>
    have hresults : ∀ r ∈ results, r.1 ≠ [] ∧ r.1 ∈ emitted := h.results
    change openaiMessagesToAnthropic serde emitted (_ ++ rest) =
      _ ++ openaiMessagesToAnthropic serde (emitted ∪ ∅) rest
    rw [Finset.union_empty, Turn.openai, Turn.back, append_assoc, back_results _ hresults,
      append_assoc]
    congr 1
    split_ifs
    · rfl
    · rw [singleton_append, openaiMessagesToAnthropic, back_user]
  | assistantBlocks texts uses =>
    have huses : ∀ u ∈ uses, u.id ≠ [] ∧ u.input.isObject = true ∧ serde.Inverse u.input := h.uses
    rw [Turn.openai, Turn.back, singleton_append, openaiMessagesToAnthropic,
      back_assistant emitted _ huses]
    rfl

theorem IsTurn.uses (h : IsTurn m t) : ∀ u ∈ t.uses, u.id ≠ [] ∧ u.input.isObject = true := by
  cases h with
  | userText | userBlocks | assistantText => exact fun u hu => absurd hu not_mem_nil
  | assistantBlocks _ _ _ hus =>
    intro u hu
    obtain ⟨b, hb⟩ := exists_of_forall₂ hus hu
    exact ⟨hb.id_ne, hb.object⟩

theorem IsTurn.text (h : IsTurn m t) {s : Text} (ht : t = .assistantText s) : s ≠ [] := by
  subst ht
  cases h with
  | assistantText _ _ hs => exact hs

/-- The messages of a conversation, there and back. -/
theorem back_turns {msgs : List Value} {turns : List Turn} {seen : List Text}
    (hmsgs : List.Forall₂ IsTurn msgs turns)
    (hanswered : Answered seen turns) (hseen : ∀ id ∈ seen, id ≠ [])
    (hinputs : ∀ t ∈ turns, ∀ u ∈ t.uses, serde.Inverse u.input) :
    openaiMessagesToAnthropic serde seen.toFinset (msgs.flatMap (anthropicMessageToOpenai serde))
      = turns.flatMap Turn.back := by
  induction hmsgs generalizing seen with
  | nil => rfl
  | @cons m t msgs turns hm _ ih =>
    obtain ⟨hresults, hrest⟩ := hanswered
    have hkept : t.Kept serde seen.toFinset := by
      refine ⟨fun r hr => ⟨hseen _ (hresults r hr), mem_toFinset.mpr (hresults r hr)⟩,
        fun u hu => ?_,
        fun s => hm.text⟩
      exact ⟨(hm.uses u hu).1, (hm.uses u hu).2, hinputs t (.head _) u hu⟩
    have hseen' : ∀ id ∈ seen ++ t.uses.map (·.id), id ≠ [] := by
      intro id hid
      rcases mem_append.mp hid with hid | hid
      · exact hseen id hid
      · obtain ⟨u, hu, rfl⟩ := mem_map.mp hid
        exact (hm.uses u hu).1
    rw [List.flatMap_cons, List.flatMap_cons, hm.openai, hkept.back, ← toFinset_append,
      ih hrest hseen' fun t' ht' => hinputs t' (.tail _ ht')]

/-! ## Transcripts of turns -/

/-- The texts of one message, joined. -/
def textContents (texts : List Text) : List Content :=
  if texts = [] then [] else [.text (join ['\n'] texts)]

def useContent (u : ToolUse) : Content := .toolUse u.id u.name u.input

def resultContent (r : Text × Text) : Content := .toolResult r.1 r.2

def Turn.items : Turn → List Item
  | .userText s => [⟨"user".toList, .text s⟩]
  | .userBlocks results texts => (results.map resultContent ++ textContents texts).map fun c =>
    ⟨"user".toList, c⟩
  | .assistantText s => [⟨"assistant".toList, .text s⟩]
  | .assistantBlocks texts uses => (textContents texts ++ uses.map useContent).map fun c =>
    ⟨"assistant".toList, c⟩

/-- A turn of the assistant without blocks reads as a blank. -/
def Turn.filled : Turn → List Item
  | .assistantBlocks [] [] => [⟨"assistant".toList, .text [' ']⟩]
  | t => t.items

theorem textContents_singleton (t : Text) : textContents [t] = [.text t] := by
  change [Content.text (join ['\n'] [t])] = _
  rw [join, intercalate_singleton]

theorem joinTexts_uses (uses : List ToolUse) :
    joinTexts (uses.map useContent) = uses.map useContent := by
  induction uses with
  | nil => rfl
  | cons u uses ih =>
    rw [map_cons]
    change useContent u :: joinTexts (uses.map useContent) = _
    rw [ih]

theorem joinTexts_results (results : List (Text × Text)) (rest : List Content) :
    joinTexts (results.map resultContent ++ rest) = results.map resultContent ++
      joinTexts rest := by
  induction results with
  | nil => rfl
  | cons r results ih =>
    rw [map_cons, cons_append]
    change resultContent r :: joinTexts (results.map resultContent ++ rest) = _
    rw [ih]
    rfl

/-- The texts of a message before its calls. -/
theorem joinTexts_texts (texts : List Text) (uses : List ToolUse) :
    joinTexts (texts.map Content.text ++ uses.map useContent) =
      textContents texts ++ uses.map useContent := by
  induction texts with
  | nil => exact joinTexts_uses uses
  | cons t texts ih =>
    rw [map_cons, cons_append, joinTexts, ih]
    cases texts with
    | nil =>
      rw [textContents_singleton]
      cases uses with
      | nil => rfl
      | cons u uses => rfl
    | cons t' texts =>
      change [Content.text (t ++ '\n' :: join ['\n'] (t' :: texts))] ++ _ = [Content.text _] ++ _
      rw [show join ['\n'] (t :: t' :: texts) = t ++ ['\n'] ++ join ['\n'] (t' :: texts) from
        intercalate_cons_cons, append_assoc]
      rfl

theorem IsText.content {b : Value} {t : Text} (h : IsText b t) :
    blockContent b = some (.text t) := by
  unfold blockContent
  rw [h.1, h.2.1]
  rfl

theorem IsUse.content {b : Value} {u : ToolUse} (h : IsUse b u) :
    blockContent b = some (useContent u) := by
  unfold blockContent
  rw [h.type, h.id, h.name, h.input]
  rfl

theorem IsResult.content {b : Value} {r : Text × Text} (h : IsResult b r) :
    blockContent b = some (resultContent r) := by
  unfold blockContent
  rw [h.type, h.id, h.text]
  rfl

/-- What a message of the conversation says. -/
theorem IsTurn.items (h : IsTurn m t) : messageItems m = t.items := by
  unfold messageItems
  cases h with
  | userText hrole hcontent | assistantText hrole hcontent =>
    rw [hrole, hcontent]
    rfl
  | @userBlocks _ _ results texts hrole hcontent hrs hts =>
    rw [hrole, hcontent]
    dsimp only [Option.getD_some]
    rw [filterMap_append, filterMap_of_forall₂ hrs fun _ _ h => h.content,
      filterMap_of_forall₂ hts fun _ _ h => h.content, joinTexts_results]
    have hjoin := joinTexts_texts texts []
    rw [map_nil, append_nil, append_nil] at hjoin
    change _ = (results.map resultContent ++ textContents texts).map _
    rw [hjoin]
  | @assistantBlocks _ _ texts uses hrole hcontent hts hus =>
    rw [hrole, hcontent]
    dsimp only [Option.getD_some]
    rw [filterMap_append, filterMap_of_forall₂ hts fun _ _ h => h.content,
      filterMap_of_forall₂ hus fun _ _ h => h.content, joinTexts_texts]
    rfl

theorem IsTurn.filled (h : IsTurn m t) : filledItems m = t.filled := by
  have hitems := h.items
  unfold filledItems
  cases h with
  | userText hrole hcontent | assistantText hrole hcontent =>
    rw [hcontent]
    exact hitems
  | userBlocks hrole hcontent =>
    rw [hcontent]
    split
    · rw [hrole, if_neg (by decide)]
      exact hitems
    · exact hitems
  | @assistantBlocks ts us texts uses hrole hcontent hts hus =>
    rw [hcontent]
    cases hts with
    | nil =>
      cases hus with
      | nil =>
        rw [append_nil]
        exact if_pos hrole
      | cons => exact hitems
    | cons => exact hitems

theorem join_ne_nil {texts : List Text} (hne : texts ≠ []) (h : ∀ t ∈ texts, t ≠ []) :
    join ['\n'] texts ≠ [] := by
  cases texts with
  | nil => exact absurd rfl hne
  | cons t texts =>
    cases texts with
    | nil =>
      rw [join, intercalate_singleton]
      exact h t (.head _)
    | cons t' texts =>
      rw [join, intercalate_cons_cons]
      simp

theorem items_uses (text : Option Text) (uses : List ToolUse) :
    messageItems (message "assistant".toList (.arr ((text.map textBlock).toList
        ++ uses.map fun u => toolUseBlock u.id u.name u.input)))
      = (textContents text.toList ++ uses.map useContent).map fun c => ⟨"assistant".toList, c⟩ := by
  have huses : (uses.map fun u => toolUseBlock u.id u.name u.input).filterMap blockContent =
    uses.map useContent := by
    rw [filterMap_map, ← filterMap_eq_map]
    rfl
  have htext : ((text.map textBlock).toList).filterMap blockContent =
    text.toList.map Content.text := by
    cases text <;> rfl
  change (joinTexts (List.filterMap blockContent _)).map _ = _
  rw [filterMap_append, huses, htext, joinTexts_texts]
  rfl

/-- What the turn says when it has come back. -/
theorem IsTurn.back_items (h : IsTurn m t) : t.back.flatMap messageItems = t.filled := by
  cases h with
  | userText => rfl
  | assistantText => rfl
  | @userBlocks _ _ results texts =>
    change _ = (results.map resultContent ++ textContents texts).map fun c =>
      (⟨"user".toList, c⟩ : Item)
    rw [Turn.back, flatMap_append, flatMap_map, map_append, map_map]
    congr 1
    · rw [← flatMap_pure_eq_map]
      rfl
    · unfold textContents
      split_ifs <;> rfl
  | @assistantBlocks ts us texts uses _ _ hts _ =>
    have hne : ∀ t ∈ texts, t ≠ [] := by
      intro t ht
      obtain ⟨b, hb⟩ := exists_of_forall₂ hts ht
      exact hb.2.2
    rw [Turn.back, flatMap_singleton]
    cases texts with
    | nil =>
      cases uses with
      | nil => rfl
      | cons u uses => exact items_uses none (u :: uses)
    | cons t texts =>
      have hjoin := join_ne_nil (cons_ne_nil t texts) hne
      have hblocks : Proxy.assistantBlocks (join ['\n'] (t :: texts))
          (uses.map fun u => toolUseBlock u.id u.name u.input)
          = ((some (join ['\n'] (t :: texts))).map textBlock).toList
            ++ uses.map fun u => toolUseBlock u.id u.name u.input := by
        unfold Proxy.assistantBlocks
        rw [if_neg hjoin]
        rfl
      rw [hblocks, items_uses, Option.toList_some, textContents_singleton]
      rfl

/-! ## Settings -/

theorem Turn.openai_role (t : Turn) : ∀ v ∈ t.openai serde,
    v.strAt "role".toList ≠ some "system".toList := by
  have hmessage : ∀ {role : Text} (content : Value), role ≠ "system".toList →
      (message role content).strAt "role".toList ≠ some "system".toList :=
    fun _ hne heq => hne (Option.some_inj.mp heq)
  intro v hv
  cases t with
  | userText s =>
    rw [mem_singleton.mp hv]
    exact hmessage _ (by decide)
  | assistantText s =>
    rw [mem_singleton.mp hv]
    exact hmessage _ (by decide)
  | userBlocks results texts =>
    rcases mem_append.mp hv with hv | hv
    · obtain ⟨r, -, rfl⟩ := mem_map.mp hv
      change some "tool".toList ≠ _
      decide
    · split_ifs at hv
      · cases hv
      · rw [mem_singleton.mp hv]
        exact hmessage _ (by decide)
  | assistantBlocks texts uses =>
    rw [mem_singleton.mp hv]
    unfold strAt
    rw [assistantMessage_role]
    change some "assistant".toList ≠ _
    decide

/-- The system text is carried by a message of its own. -/
theorem openaiSystem_turns {msgs : List Value} {turns : List Turn}
    (h : List.Forall₂ IsTurn msgs turns) (system : Text) :
    openaiSystem ((if system = [] then [] else [message "system".toList (.str system)])
      ++ msgs.flatMap (anthropicMessageToOpenai serde)) = system := by
  have hnone : ∀ v ∈ msgs.flatMap (anthropicMessageToOpenai serde),
    v.strAt "role".toList ≠ some "system".toList := by
    intro v hv
    obtain ⟨m, hm, hv⟩ := mem_flatMap.mp hv
    obtain ⟨t, ht⟩ := exists_of_forall₂ h.flip hm
    rw [ht.openai] at hv
    exact t.openai_role v hv
  have hrest : (msgs.flatMap (anthropicMessageToOpenai serde)).filterMap (fun m =>
      if m.strAt "role".toList = some "system".toList then
        let text := openaiText (m.get "content".toList)
        if text = [] then none else some text
      else none) = [] := by
    rw [filterMap_eq_nil_iff]
    exact fun v hv => if_neg (hnone v hv)
  unfold openaiSystem
  rw [filterMap_append, hrest, append_nil]
  by_cases hsystem : system = []
  · rw [if_pos hsystem, hsystem]
    rfl
  · have hone : ([message "system".toList (.str system)].filterMap fun m =>
        if m.strAt "role".toList = some "system".toList then
          let text := openaiText (m.get "content".toList)
          if text = [] then none else some text
        else none) = [system] := by
      refine filterMap_cons_some ?_
      exact (if_pos rfl).trans (if_neg hsystem)
    rw [if_neg hsystem, hone, join, intercalate_singleton]

/-- A positive integer below `2 ^ 63` is read as itself. -/
theorem positiveInt_value {n : Number} (hpos : 0 < n.value) (hwhole : n.value.den = 1)
    (hlt : n.value < 2 ^ 63) :
    ∃ i : Int, positiveInt (.num n) = some i ∧ 0 < i ∧ i < 2 ^ 63 ∧ (i : Rat) = n.value := by
  cases n with
  | posInt k =>
    change (0 : Rat) < (k : Rat) at hpos
    change (k : Rat) < 2 ^ 63 at hlt
    have hk : 0 < k := by exact_mod_cast hpos
    have hk' : k < 2 ^ 63 := by exact_mod_cast hlt
    refine ⟨k, ?_, by omega, by omega, by push_cast; rfl⟩
    change (if k < 2 ^ 63 then (if 0 < k then some (k : Int) else none) else some (2 ^ 63 - 1)) = _
    rw [if_pos hk', if_pos hk]
  | negInt i =>
    change (0 : Rat) < (i : Rat) at hpos
    change (i : Rat) < 2 ^ 63 at hlt
    have hi : 0 < i := by exact_mod_cast hpos
    have hi' : i < 2 ^ 63 := by exact_mod_cast hlt
    exact ⟨i, if_pos hi, hi, hi', rfl⟩
  | float q =>
    change (0 : Rat) < q at hpos
    change q.den = 1 at hwhole
    change q < 2 ^ 63 at hlt
    have hnum : (q.num : Rat) = q := Rat.coe_int_num_of_den_eq_one hwhole
    have hle : q.num < 2 ^ 63 := by
      rw [← hnum] at hlt
      exact_mod_cast hlt
    refine ⟨q.num, ?_, Rat.num_pos.mpr hpos, hle, hnum⟩
    change (if 0 < q ∧ q.den = 1 then some (min q.num (2 ^ 63 - 1)) else none) = _
    rw [if_pos ⟨hpos, hwhole⟩, min_eq_left (by omega)]

/-- The integer that is written is read again. -/
theorem positiveInt_ofPositive {i : Int} (hpos : 0 < i) (hlt : i < 2 ^ 63) :
    positiveInt (ofPositive i) = some i := by
  have hi : ((i.toNat : Nat) : Int) = i := Int.toNat_of_nonneg hpos.le
  have h1 : i.toNat < 2 ^ 63 := by omega
  have h2 : 0 < i.toNat := by omega
  change (if i.toNat < 2 ^ 63 then (if 0 < i.toNat then some ((i.toNat : Nat) : Int) else none)
    else some (2 ^ 63 - 1)) = _
  rw [if_pos h1, if_pos h2, hi]

/-- A schema that is given, or the default for it, is not null. -/
theorem schema_given (o : Option Value) :
    (Option.filter (fun v => !v.isNull)
      (some ((o.filter fun v => !v.isNull).getD objectSchema))).getD objectSchema
      = (o.filter fun v => !v.isNull).getD objectSchema := by
  cases hs : o.filter fun v => !v.isNull with
  | none => rfl
  | some schema =>
    have hnull := (Option.filter_eq_some_iff.mp hs).2
    rw [Option.getD_some, Option.filter_some, if_pos hnull, Option.getD_some]

theorem toolDefinition_back (t : Value) : (openaiTool (anthropicTool t)).map toolDefinition =
    some (toolDefinition t) := by
  change some ((toolDefinition t).1, (toolDefinition t).2.1,
    (Option.filter (fun v => !v.isNull) (some (toolDefinition t).2.2)).getD objectSchema) =
      some (toolDefinition t)
  rw [toolDefinition, schema_given]

/-! ## The request, there and back -/

section RoundTrip

variable (serde) (req : Value) (model : Text)

/-- The messages of the OpenAI request. -/
def openaiMessages : List Value :=
  (if systemText req = [] then [] else [message "system".toList (.str (systemText req))])
    ++ ((req.arrayAt "messages".toList).getD []).flatMap (anthropicMessageToOpenai serde)

theorem body_messages : (anthropicBodyToOpenai serde req).get "messages".toList =
    some (.arr (openaiMessages serde req)) :=
  get_object (by exact openaiKeys_nodup) _

theorem body_maxTokens : (anthropicBodyToOpenai serde req).get "max_tokens".toList
    = ((req.get "max_tokens".toList).bind positiveInt).map ofPositive :=
  get_object (by exact openaiKeys_nodup) _

theorem body_temperature : (anthropicBodyToOpenai serde req).get "temperature".toList =
    req.numberAt "temperature".toList :=
  get_object (by exact openaiKeys_nodup) _

theorem body_topP : (anthropicBodyToOpenai serde req).get "top_p".toList =
    req.numberAt "top_p".toList :=
  get_object (by exact openaiKeys_nodup) _

theorem body_stop : (anthropicBodyToOpenai serde req).get "stop".toList
    = nonEmptyArray ((req.arrayAt "stop_sequences".toList).getD []) :=
  get_object (by exact openaiKeys_nodup) _

theorem body_tools : (anthropicBodyToOpenai serde req).get "tools".toList
    = nonEmptyArray (((req.arrayAt "tools".toList).getD []).map anthropicTool) :=
  get_object (by exact openaiKeys_nodup) _

theorem result_messages : (openaiBodyToAnthropic serde req model).get "messages".toList
    = some (.arr (openaiMessagesToAnthropic serde ∅ ((req.arrayAt "messages".toList).getD []))) :=
  get_object (by exact anthropicKeys_nodup) _

theorem result_maxTokens : (openaiBodyToAnthropic serde req model).get "max_tokens".toList
    = some (ofPositive (((req.get "max_tokens".toList).bind positiveInt).getD
      (((req.get "max_completion_tokens".toList).bind positiveInt).getD bridgeDefaultMaxTokens))) :=
  get_object (by exact anthropicKeys_nodup) _

theorem result_temperature : (openaiBodyToAnthropic serde req model).get "temperature".toList
    = req.numberAt "temperature".toList :=
  get_object (by exact anthropicKeys_nodup) _

theorem result_topP : (openaiBodyToAnthropic serde req model).get "top_p".toList =
    req.numberAt "top_p".toList :=
  get_object (by exact anthropicKeys_nodup) _

theorem result_system : (openaiBodyToAnthropic serde req model).get "system".toList
    = if openaiSystem ((req.arrayAt "messages".toList).getD []) = [] then none
      else some (.str (openaiSystem ((req.arrayAt "messages".toList).getD []))) :=
  get_object (by exact anthropicKeys_nodup) _

theorem result_stops : (openaiBodyToAnthropic serde req model).get "stop_sequences".toList
    = nonEmptyArray ((openaiStops (req.get "stop".toList)).map .str) :=
  get_object (by exact anthropicKeys_nodup) _

theorem result_tools : (openaiBodyToAnthropic serde req model).get "tools".toList
    = nonEmptyArray (openaiToolsToAnthropic (req.get "tools".toList)) :=
  get_object (by exact anthropicKeys_nodup) _

end RoundTrip

theorem numberAt_of_get {key : Text} {v w : Value} (h : v.get key = w.numberAt key) :
    v.numberAt key = w.numberAt key := by
  unfold numberAt at h ⊢
  rw [h, Option.filter_filter]
  simp only [Bool.and_self]

theorem stops_back (items : List Value) : openaiStops (nonEmptyArray items) =
    items.filterMap asStr := by
  unfold nonEmptyArray
  split_ifs with h
  · rw [h]
    rfl
  · rfl

theorem filterMap_asStr (texts : List Text) : (texts.map Value.str).filterMap asStr = texts := by
  rw [filterMap_map]
  exact filterMap_some

theorem tools_back (tools : List Value) :
    (openaiToolsToAnthropic (nonEmptyArray (tools.map anthropicTool))).map toolDefinition =
      tools.map toolDefinition := by
  unfold openaiToolsToAnthropic
  rw [nonEmptyArray_getD, filterMap_map, map_filterMap, ← filterMap_eq_map]
  refine filterMap_congr (fun t _ => ?_)
  exact toolDefinition_back t

theorem system_message_dropped (system : Text) (rest : List Value) :
    openaiMessagesToAnthropic serde ∅
      ((if system = [] then [] else [message "system".toList (.str system)]) ++ rest)
      = openaiMessagesToAnthropic serde ∅ rest := by
  split_ifs <;> rfl

theorem flatMap_of_forall₂ {msgs : List Value} {turns : List Turn}
    (h : List.Forall₂ IsTurn msgs turns) :
    (turns.flatMap Turn.back).flatMap messageItems = msgs.flatMap filledItems := by
  induction h with
  | nil => rfl
  | cons hm _ ih =>
    rw [List.flatMap_cons, flatMap_append, List.flatMap_cons, ih, hm.back_items, hm.filled]

/-- **A translation keeps the conversation.** A request that is translated to OpenAI and back has
the same system text, the same temperature, stop sequences and tool definitions, the same
`max_tokens` if that is a positive integer below `2 ^ 63`, and the same transcript, in which a
message of the assistant without blocks reads as a blank. -/
theorem translation_keeps_conversation (serde : SerdeJson) {raw : Text} (model : Text) {req : Value}
    {turns : List Turn} (hraw : serde.parse raw = some req) (hconv : Conversation req turns)
    (hinputs : ∀ t ∈ turns, ∀ u ∈ t.uses, serde.Inverse u.input)
    (hbody : ∀ body, anthropicToOpenai serde raw = some body →
      serde.parse (serde.print body) = some body) :
    ∃ body result, anthropicToOpenai serde raw = some body ∧
      openaiToAnthropic serde (serde.print body) model = some result ∧
      systemText result = systemText req ∧
      (∀ n, req.get "max_tokens".toList = some (.num n) → 0 < n.value → n.value.den = 1 →
        n.value < 2 ^ 63 →
        ∃ n', result.get "max_tokens".toList = some (.num n') ∧ n'.value = n.value) ∧
      result.numberAt "temperature".toList = req.numberAt "temperature".toList ∧
      result.numberAt "top_p".toList = req.numberAt "top_p".toList ∧
      stopSequences result = stopSequences req ∧
      toolDefinitions result = toolDefinitions req ∧ transcript result = filledTranscript req := by
  obtain ⟨msgs, hmsgs, hturns⟩ := hconv.messages
  have hto : anthropicToOpenai serde raw = some (anthropicBodyToOpenai serde req) := by
    unfold anthropicToOpenai
    rw [hraw]
    rfl
  have hfrom : openaiToAnthropic serde (serde.print (anthropicBodyToOpenai serde req)) model
      = some (openaiBodyToAnthropic serde (anthropicBodyToOpenai serde req) model) := by
    unfold openaiToAnthropic
    rw [hbody _ hto]
    rfl
  have hmessages : ((anthropicBodyToOpenai serde req).arrayAt "messages".toList).getD []
      = (if systemText req = [] then [] else [message "system".toList (.str (systemText req))])
        ++ msgs.flatMap (anthropicMessageToOpenai serde) := by
    unfold arrayAt
    rw [body_messages, Option.bind_some]
    unfold openaiMessages
    rw [hmsgs]
    rfl
  refine ⟨_, _, hto, hfrom, ?_, ?_, ?_, ?_, ?_, ?_, ?_⟩
  · unfold systemText
    rw [result_system, hmessages, openaiSystem_turns hturns]
    split_ifs with hsystem
    · exact hsystem.symm
    · rfl
  · intro n hn hpos hwhole hlt
    obtain ⟨i, hread, hi, hlt', hvalue⟩ := positiveInt_value hpos hwhole hlt
    refine ⟨.posInt i.toNat, ?_, ?_⟩
    · rw [result_maxTokens, body_maxTokens, hn, Option.bind_some, hread, Option.map_some,
        Option.bind_some, positiveInt_ofPositive hi hlt']
      rfl
    · rw [← hvalue]
      change ((i.toNat : Nat) : Rat) = (i : Rat)
      exact_mod_cast congrArg (Int.cast : Int → Rat) (Int.toNat_of_nonneg hi.le)
  · rw [numberAt_of_get (result_temperature serde _ model),
      numberAt_of_get (body_temperature serde req)]
  · rw [numberAt_of_get (result_topP serde _ model), numberAt_of_get (body_topP serde req)]
  · unfold stopSequences arrayAt
    rw [result_stops, nonEmptyArray_getD, filterMap_asStr, body_stop, stops_back]
    rfl
  · unfold toolDefinitions arrayAt
    rw [result_tools, nonEmptyArray_getD, body_tools, tools_back]
    rfl
  · unfold transcript filledTranscript arrayAt
    rw [result_messages, Option.bind_some, hmessages, system_message_dropped]
    change List.flatMap messageItems (openaiMessagesToAnthropic serde (List.toFinset []) _) = _
    rw [back_turns hturns hconv.answered (fun _ h => absurd h not_mem_nil) hinputs,
      flatMap_of_forall₂ hturns]
    change _ = List.flatMap filledItems ((req.arrayAt "messages".toList).getD [])
    rw [hmsgs]
    rfl

/-! A codec for values without floats, which puts the keys of what it reads in order, and two
requests: a call of a tool with its result, and a message of the assistant without blocks under a
`max_tokens` that is too large. -/

mutual

def toJson : Value → Json
  | .null => .null
  | .bool b => .bool b
  | .num (.posInt n) => .int n
  | .num (.negInt i) => .int i
  | .num (.float q) => .int q.num
  | .str s => .str s
  | .arr items => .arr (toJsons items)
  | .obj fields => .obj (toJsonFields fields)

def toJsons : List Value → List Json
  | [] => []
  | v :: vs => toJson v :: toJsons vs

def toJsonFields : List (Text × Value) → List (Text × Json)
  | [] => []
  | (k, v) :: fields => (k, toJson v) :: toJsonFields fields

end

/-- A field in its place in an object; of fields under one key the last one counts. -/
def insertField (key : Text) (v : Value) : List (Text × Value) → List (Text × Value)
  | [] => [(key, v)]
  | (k, w) :: fields =>
    if key < k then (key, v) :: (k, w) :: fields
    else if key = k then (k, w) :: fields
    else (k, w) :: insertField key v fields

theorem insertField_of_lt {key : Text} (v : Value) {fields : List (Text × Value)}
    (h : ∀ k ∈ fields.map (·.1), key < k) : insertField key v fields = (key, v) :: fields := by
  cases fields with
  | nil => rfl
  | cons f fields => exact if_pos (h f.1 (.head _))

mutual

def ofJson : Json → Value
  | .null => .null
  | .bool b => .bool b
  | .int i => .num (if 0 ≤ i then .posInt i.toNat else .negInt i)
  | .real => .num (.float 0)
  | .str s => .str s
  | .arr items => .arr (ofJsons items)
  | .obj fields => .obj (ofJsonFields fields)

def ofJsons : List Json → List Value
  | [] => []
  | v :: vs => ofJson v :: ofJsons vs

def ofJsonFields : List (Text × Json) → List (Text × Value)
  | [] => []
  | (k, v) :: fields => insertField k (ofJson v) (ofJsonFields fields)

end

def floatFree : SerdeJson where
  print v := (toJson v).render Resume.escapeChar
  parse s := (Json.parse s).map ofJson

theorem floatFree_parse (v : Value) : floatFree.parse (floatFree.print v) =
    some (ofJson (toJson v)) := by
  change (Json.parse ((toJson v).render Resume.escapeChar)).map ofJson = _
  rw [Json.parse_render Resume.readable_escapeChar]
  rfl

def calledReq : Value :=
  .obj [("max_tokens".toList, .num (.posInt 5)), ("messages".toList,
      .arr [message "assistant".toList (.arr [textBlock ['t'], toolUseBlock ['i'] ['n'] (.obj [])]),
      message "user".toList (.arr [toolResultBlock ['i'] ['r']])]), ("system".toList, .str ['s'])]

def calledTurns : List Turn :=
  [.assistantBlocks [['t']] [⟨['i'], ['n'], .obj []⟩], .userBlocks [(['i'], ['r'])] []]

theorem called_conversation : Conversation calledReq calledTurns := by
  have htext : IsText (textBlock ['t']) ['t'] := ⟨rfl, rfl, by decide⟩
  have huse : IsUse (toolUseBlock ['i'] ['n'] (.obj [])) ⟨['i'], ['n'], .obj []⟩ :=
    ⟨rfl, rfl, rfl, rfl, by decide, rfl⟩
  have hresult : IsResult (toolResultBlock ['i'] ['r']) (['i'], ['r']) := ⟨rfl, rfl, rfl, by decide⟩
  refine ⟨⟨_, rfl, .cons ?_ (.cons ?_ .nil)⟩, ?_⟩
  · exact .assistantBlocks rfl rfl (.cons htext .nil) (.cons huse .nil)
  · exact .userBlocks rfl rfl (.cons hresult .nil) .nil
  · exact ⟨fun _ h => absurd h not_mem_nil,
      fun r hr => by rw [mem_singleton.mp hr]; exact mem_singleton.mpr rfl, trivial⟩

theorem translation_keeps_conversation_sample :
    ∃ body result, anthropicToOpenai floatFree (floatFree.print calledReq) = some body ∧
      openaiToAnthropic floatFree (floatFree.print body) ['m'] = some result ∧
      systemText result = ['s'] ∧ transcript result = filledTranscript calledReq := by
  have hraw : floatFree.parse (floatFree.print calledReq) = some calledReq :=
    floatFree_parse calledReq
  have hinput : ∀ t ∈ calledTurns, ∀ u ∈ t.uses, u.input = .obj [] := by
    simp [calledTurns, Turn.uses]
  have hinputs : ∀ t ∈ calledTurns, ∀ u ∈ t.uses, floatFree.Inverse u.input := by
    intro t ht u hu
    rw [hinput t ht u hu]
    exact ⟨floatFree_parse _, by decide⟩
  have hbody : ∀ body, anthropicToOpenai floatFree (floatFree.print calledReq) = some body →
      floatFree.parse (floatFree.print body) = some body := by
    intro body hbody
    unfold anthropicToOpenai at hbody
    rw [hraw] at hbody
    cases hbody
    exact floatFree_parse _
  obtain ⟨body, result, hto, hback, hsystem, -, -, -, -, -, htranscript⟩ :=
    translation_keeps_conversation floatFree ['m'] hraw called_conversation hinputs hbody
  exact ⟨body, result, hto, hback, hsystem, htranscript⟩

def blankReq : Value :=
  .obj [("max_tokens".toList, .num (.posInt (2 ^ 63))),
    ("messages".toList, .arr [message "assistant".toList (.arr [])])]

/-- The transcript is empty before and not after, and `max_tokens` is another number. -/
theorem blank_turn_filled :
    Conversation blankReq [.assistantBlocks [] []] ∧
      ∃ body result, anthropicToOpenai floatFree (floatFree.print blankReq) = some body ∧
        openaiToAnthropic floatFree (floatFree.print body) ['m'] = some result ∧
        transcript blankReq = [] ∧ transcript result = [⟨"assistant".toList, .text [' ']⟩] ∧
        result.get "max_tokens".toList = some (.num (.posInt (2 ^ 63 - 1))) := by
  have hto : anthropicToOpenai floatFree (floatFree.print blankReq) =
    some (anthropicBodyToOpenai floatFree blankReq) := by
    unfold anthropicToOpenai
    rw [floatFree_parse]
    rfl
  have hback : openaiToAnthropic floatFree
    (floatFree.print (anthropicBodyToOpenai floatFree blankReq)) ['m']
      = some (openaiBodyToAnthropic floatFree (anthropicBodyToOpenai floatFree blankReq)
        ['m']) := by
    unfold openaiToAnthropic
    rw [floatFree_parse]
    rfl
  refine ⟨⟨⟨_, rfl, .cons (.assistantBlocks rfl rfl .nil .nil) .nil⟩, ?_⟩, _, _, hto, hback,
    rfl, ?_, ?_⟩
  · exact ⟨fun _ h => absurd h not_mem_nil, trivial⟩
  · unfold transcript arrayAt
    rw [result_messages]
    rfl
  · rw [result_maxTokens, body_maxTokens]
    rfl

end Thegn.Proxy
