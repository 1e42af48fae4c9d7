import Thegn.Proxy.RoundTrip

set_option autoImplicit false

/-! # What a translated request still asks for

The constraints of a request on its answer: the tools it offers, how they are to be chosen, the stop
strings and the token limit. Each is read in the vocabulary of its protocol and goes through a
helper of its own, which leaves out what it does not know.
-/

namespace Thegn.Proxy

open Text Value List

/-! ## Constraints -/

/-- What a `tool_choice` asks for. -/
inductive Choice
  | mayCall
  | mustCallSome
  | mustCall (name : Text)
  | mustNotCall
  deriving DecidableEq

/-- In an OpenAI request; nothing for a value of another shape. -/
def openaiChoice : Option Value → Option Choice
  | none => some .mayCall
  | some .null => some .mayCall
  | some (.str s) =>
    if s = "auto".toList then some .mayCall
    else if s = "required".toList then some .mustCallSome
    else if s = "none".toList then some .mustNotCall
    else none
  | some v =>
    if v.strAt "type".toList = some "function".toList then
      ((v.get "function".toList).bind (Value.strAt "name".toList)).map .mustCall
    else none

/-- In an Anthropic request. -/
def anthropicChoice : Option Value → Option Choice
  | none => some .mayCall
  | some v =>
    let type := v.strAt "type".toList
    if type = some "auto".toList then some .mayCall
    else if type = some "any".toList then some .mustCallSome
    else if type = some "tool".toList then (v.strAt "name".toList).map .mustCall
    else if type = some "none".toList then some .mustNotCall
    else none

/-- Name, description and parameters of an OpenAI function, with the defaults for what is
missing. -/
def functionDefinition (t : Value) : Text × Text × Value :=
  let f := t.get "function".toList
  ((f.bind (Value.strAt "name".toList)).getD [],
    (f.bind (Value.strAt "description".toList)).getD [],
    ((f.bind (Value.get "parameters".toList)).filter fun v => !v.isNull).getD objectSchema)

/-- The tool is a function. -/
def isFunctionTool (t : Value) : Bool :=
  let type := (t.strAt "type".toList).getD []
  decide (type = [] ∨ type = "function".toList)

/-- The function tools that an OpenAI request offers. -/
def functionDefinitions (req : Value) : List (Text × Text × Value) :=
  (((req.arrayAt "tools".toList).getD []).filter isFunctionTool).map functionDefinition

/-- The request has the positive limit `n` under the key. -/
def Limits (req : Value) (key : Text) (n : Number) : Prop :=
  req.get key = some (.num n) ∧ 0 < n.value

/-- The limit of the request is not above `n`. -/
def LimitedBy (req : Value) (n : Number) : Prop :=
  ∃ m, Limits req "max_tokens".toList m ∧ m.value ≤ n.value

/-- **Nothing is widened** from OpenAI to Anthropic, as one would have it. -/
structure OpenaiKept (req out : Value) : Prop where
  tools : toolDefinitions out = functionDefinitions req
  stops : stopSequences out = openaiStops (req.get "stop".toList)
  limit : ∀ n, Limits req "max_tokens".toList n ∨ Limits req "max_completion_tokens".toList n →
    LimitedBy out n
  choice : ∀ c, openaiChoice (req.get "tool_choice".toList) = some c →
    anthropicChoice (out.get "tool_choice".toList) = some c

/-- The same from Anthropic to OpenAI. -/
structure AnthropicKept (req out : Value) : Prop where
  stops : openaiStops (out.get "stop".toList) = stopSequences req
  limit : ∀ n, Limits req "max_tokens".toList n → LimitedBy out n
  choice : ∀ c, anthropicChoice (req.get "tool_choice".toList) = some c →
    openaiChoice (out.get "tool_choice".toList) = some c

/-- What the translation to Anthropic keeps: of the limits the whole ones, and `max_tokens` before
`max_completion_tokens`; of the choices all but `none` and a function without a name, which become
`auto`. -/
structure OpenaiConstraints (req out : Value) : Prop where
  tools : toolDefinitions out = functionDefinitions req
  stops : stopSequences out = openaiStops (req.get "stop".toList)
  limit : ∀ n, Limits req "max_tokens".toList n → n.value.den = 1 → LimitedBy out n
  completionLimit : ∀ n, Limits req "max_completion_tokens".toList n → n.value.den = 1 →
    (∀ m, Limits req "max_tokens".toList m → m.value.den = 1 → m.value ≤ n.value) → LimitedBy out n
  choice : ∀ c, openaiChoice (req.get "tool_choice".toList) = some c →
    anthropicChoice (out.get "tool_choice".toList)
      = some (if c = .mustNotCall ∨ c = .mustCall [] then .mayCall else c)

/-- What the translation to OpenAI keeps: of the limits the whole ones, of the choices all but
`none`, and none if no tools are offered. -/
structure AnthropicConstraints (req out : Value) : Prop where
  stops : openaiStops (out.get "stop".toList) = stopSequences req
  limit : ∀ n, Limits req "max_tokens".toList n → n.value.den = 1 → LimitedBy out n
  choice : ∀ c, anthropicChoice (req.get "tool_choice".toList) = some c →
    openaiChoice (out.get "tool_choice".toList)
      = some (if c = .mustNotCall ∨ (req.arrayAt "tools".toList).getD [] = [] then .mayCall else c)

/-! ## Limits -/

/-- What `positive_int` makes of a whole positive number is not above it. -/
theorem positiveInt_whole {n : Number} (hpos : 0 < n.value) (hwhole : n.value.den = 1) :
    ∃ i : Int, positiveInt (.num n) = some i ∧ 0 < i ∧ (i : Rat) ≤ n.value := by
  cases n with
  | posInt k =>
    change (0 : Rat) < (k : Rat) at hpos
    have hk : 0 < k := by exact_mod_cast hpos
    change ∃ i : Int, (if k < 2 ^ 63 then (if 0 < k then some (k : Int) else none)
      else some (2 ^ 63 - 1)) = some i
      ∧ 0 < i ∧ (i : Rat) ≤ (k : Rat)
    by_cases hlt : k < 2 ^ 63
    · exact ⟨k, by rw [if_pos hlt, if_pos hk], by omega, by push_cast; exact le_refl _⟩
    · have hle : (2 ^ 63 - 1 : Int) ≤ (k : Int) := by omega
      exact ⟨2 ^ 63 - 1, if_neg hlt, by norm_num, by exact_mod_cast hle⟩
  | negInt i =>
    change (0 : Rat) < (i : Rat) at hpos
    have hi : 0 < i := by exact_mod_cast hpos
    exact ⟨i, if_pos hi, hi, le_refl _⟩
  | float q =>
    change (0 : Rat) < q at hpos
    change q.den = 1 at hwhole
    have hnum : (q.num : Rat) = q := Rat.coe_int_num_of_den_eq_one hwhole
    have hq : 0 < q.num := Rat.num_pos.mpr hpos
    refine ⟨min q.num (2 ^ 63 - 1), if_pos ⟨hpos, hwhole⟩, by omega, ?_⟩
    have hle : min q.num (2 ^ 63 - 1) ≤ q.num := min_le_left _ _
    change _ ≤ q
    rw [← hnum]
    exact_mod_cast hle

/-- What is read as a positive integer is a whole positive number. -/
theorem whole_of_positiveInt {v : Value} {i : Int} (h : positiveInt v = some i) :
    ∃ n, v = .num n ∧ 0 < n.value ∧ n.value.den = 1 ∧ 0 < i ∧ (i : Rat) ≤ n.value := by
  have hwhole : ∃ n, v = .num n ∧ 0 < n.value ∧ n.value.den = 1 := by
    cases v with
    | num n =>
      refine ⟨n, rfl, ?_⟩
      cases n with
      | posInt k =>
        change (if k < 2 ^ 63 then (if 0 < k then some (k : Int) else none)
          else some (2 ^ 63 - 1)) = some i at h
        have hk : 0 < k := by
          split_ifs at h with h1 h2
          · exact h2
          · omega
        exact ⟨by change (0 : Rat) < (k : Rat); exact_mod_cast hk, rfl⟩
      | negInt j =>
        change (if 0 < j then some j else none) = some i at h
        split_ifs at h with hj
        exact ⟨by change (0 : Rat) < (j : Rat); exact_mod_cast hj, rfl⟩
      | float q =>
        change (if 0 < q ∧ q.den = 1 then some (min q.num (2 ^ 63 - 1)) else none) = some i at h
        split_ifs at h with hq
        exact hq
    | null | bool | str | arr | obj => cases h
  obtain ⟨n, rfl, hpos, hone⟩ := hwhole
  obtain ⟨j, hj, hj0, hle⟩ := positiveInt_whole hpos hone
  rw [h, Option.some.injEq] at hj
  rw [hj]
  exact ⟨n, rfl, hpos, hone, hj0, hle⟩

theorem ofPositive_value {i : Int} (h : 0 < i) : ∃ m, ofPositive i = .num m ∧ m.value = i := by
  refine ⟨.posInt i.toNat, rfl, ?_⟩
  have hi : ((i.toNat : Nat) : Int) = i := Int.toNat_of_nonneg h.le
  change ((i.toNat : Nat) : Rat) = (i : Rat)
  exact_mod_cast congrArg (Int.cast : Int → Rat) hi

/-- The limit that is written. -/
theorem limitedBy_of_get {out : Value} {i : Int}
    (hget : out.get "max_tokens".toList = some (ofPositive i)) (hi : 0 < i)
    {n : Number} (hle : (i : Rat) ≤ n.value) : LimitedBy out n := by
  obtain ⟨m, hm, hval⟩ := ofPositive_value hi
  refine ⟨m, ⟨hget.trans (congrArg some hm), ?_⟩, ?_⟩
  · rw [hval]
    exact_mod_cast hi
  · rw [hval]
    exact hle

/-! ## Choices -/

def toolChoiceBlock (name : Text) : Value :=
  .obj [("name".toList, .str name), ("type".toList, .str "tool".toList)]

def functionChoice (name : Text) : Value :=
  .obj [("function".toList, .obj [("name".toList, .str name)]),
    ("type".toList, .str "function".toList)]

theorem anthropicChoice_tool (name : Text) :
    anthropicChoice (some (toolChoiceBlock name)) = some (.mustCall name) := rfl

theorem openaiChoice_function (name : Text) :
    openaiChoice (some (functionChoice name)) = some (.mustCall name) := rfl

/-- The choice for Anthropic means what the OpenAI one does, or is left out. -/
theorem choice_openai {raw : Option Value} {c : Choice} (h : openaiChoice raw = some c) :
    anthropicChoice (openaiToolChoice raw) = some (if c = .mustNotCall ∨
      c = .mustCall [] then .mayCall else c) := by
  have hfunction : ∀ v : Value, openaiToolChoice (some v) =
    (if v.strAt "type".toList = some "function".toList then
        ((v.get "function".toList).bind (nonEmptyAt "name".toList)).map toolChoiceBlock else none) →
      (if v.strAt "type".toList = some "function".toList then
        ((v.get "function".toList).bind (Value.strAt "name".toList)).map Choice.mustCall
          else none) = some c →
      anthropicChoice (openaiToolChoice (some v))
        = some (if c = .mustNotCall ∨ c = .mustCall [] then .mayCall else c) := by
    intro v htranslated hc
    split_ifs at hc with htype
    obtain ⟨name, hname, rfl⟩ := Option.map_eq_some_iff.mp hc
    obtain ⟨f, hf, hname⟩ := Option.bind_eq_some_iff.mp hname
    rw [htranslated, if_pos htype, hf, Option.bind_some, nonEmptyAt, hname]
    by_cases hempty : name = []
    · rw [hempty]
      decide
    · rw [Option.filter_some, if_pos (decide_eq_true hempty), Option.map_some, anthropicChoice_tool,
        if_neg (by simp [hempty])]
  cases raw with
  | none =>
    cases h
    rfl
  | some v =>
    cases v with
    | null =>
      cases h
      rfl
    | str s =>
      change (if s = "auto".toList then some Choice.mayCall else if s = "required".toList
        then some .mustCallSome
        else if s = "none".toList then some .mustNotCall else none) = some c at h
      split_ifs at h with hauto hrequired hnone
      · cases h
        rw [hauto]
        decide
      · cases h
        rw [hrequired]
        decide
      · cases h
        rw [hnone]
        decide
    | bool b => exact hfunction _ rfl h
    | num n => exact hfunction _ rfl h
    | arr items => exact hfunction _ rfl h
    | obj fields => exact hfunction _ rfl h

/-- The choice for OpenAI means what the Anthropic one does, or is left out. -/
theorem choice_anthropic {raw : Option Value} {c : Choice} (h : anthropicChoice raw = some c) :
    openaiChoice (anthropicToolChoice raw) = some (if c = .mustNotCall then .mayCall else c) := by
  cases raw with
  | none =>
    cases h
    rfl
  | some v =>
    have htranslated : anthropicToolChoice (some v)
        = if v.strAt "type".toList = some "auto".toList then some (.str "auto".toList)
          else if v.strAt "type".toList = some "any".toList then some (.str "required".toList)
          else if v.strAt "type".toList = some "tool".toList then
            some (functionChoice ((v.strAt "name".toList).getD []))
          else none := rfl
    change (if v.strAt "type".toList = some "auto".toList then some Choice.mayCall
      else if v.strAt "type".toList = some "any".toList then some .mustCallSome
      else if v.strAt "type".toList = some "tool".toList then (v.strAt "name".toList).map .mustCall
      else if v.strAt "type".toList = some "none".toList then some .mustNotCall
        else none) = some c at h
    rw [htranslated]
    split_ifs at h with hauto hany htool hnone
    · cases h
      rw [if_pos hauto]
      decide
    · cases h
      rw [if_neg hauto, if_pos hany]
      decide
    · obtain ⟨name, hname, rfl⟩ := Option.map_eq_some_iff.mp h
      rw [if_neg hauto, if_neg hany, if_pos htool, hname, Option.getD_some, openaiChoice_function,
        if_neg (by simp)]
    · cases h
      rw [if_neg hauto, if_neg hany, if_neg htool]
      decide

/-! ## Tools -/

/-- An offered function is the tool it is translated to. -/
theorem toolDefinition_openaiTool (t : Value) :
    (openaiTool t).map toolDefinition = if isFunctionTool t then some (functionDefinition t)
      else none := by
  by_cases h : (t.strAt "type".toList).getD [] = [] ∨
    (t.strAt "type".toList).getD [] = "function".toList
  · have hfunction : isFunctionTool t = true := decide_eq_true h
    have hschema (o : Option Value) :
        (Option.filter (fun v => !v.isNull) (some (o.getD objectSchema))).getD objectSchema
          = (o.filter fun v => !v.isNull).getD objectSchema := by
      cases o with
      | none => rfl
      | some v => rfl
    rw [if_pos hfunction, openaiTool, if_neg (by rw [← not_or]; exact not_not.mpr h)]
    change some (_, _, (Option.filter (fun v => !v.isNull) (some (Option.getD _ objectSchema))).getD
      objectSchema) = _
    rw [hschema]
    rfl
  · have hother : isFunctionTool t = false := decide_eq_false h
    rw [hother, openaiTool, if_pos (not_or.mp h)]
    rfl

theorem toolDefinitions_openai (tools : List Value) :
    (tools.filterMap openaiTool).map toolDefinition = (tools.filter isFunctionTool).map
      functionDefinition := by
  induction tools with
  | nil => rfl
  | cons t tools ih =>
    have ht := toolDefinition_openaiTool t
    by_cases h : isFunctionTool t = true
    · rw [if_pos h] at ht
      obtain ⟨d, hd, hdef⟩ := Option.map_eq_some_iff.mp ht
      rw [filterMap_cons_some hd, filter_cons_of_pos h, map_cons, map_cons, hdef, ih]
    · rw [if_neg h, Option.map_eq_none_iff] at ht
      rw [filterMap_cons_none ht, filter_cons_of_neg h, ih]

/-! ## The translations -/

section Kept

variable (serde : SerdeJson) (req : Value) (model : Text)

theorem result_choice : (openaiBodyToAnthropic serde req model).get "tool_choice".toList
    = openaiToolChoice (req.get "tool_choice".toList) :=
  get_object (by exact anthropicKeys_nodup) _

theorem body_choice : (anthropicBodyToOpenai serde req).get "tool_choice".toList
    = if (req.arrayAt "tools".toList).getD [] = [] then none
      else anthropicToolChoice (req.get "tool_choice".toList) :=
  get_object (by exact openaiKeys_nodup) _

theorem openaiConstraints : OpenaiConstraints req (openaiBodyToAnthropic serde req model) where
  tools := by
    rw [toolDefinitions, arrayAt, result_tools, nonEmptyArray_getD]
    exact toolDefinitions_openai _
  stops := by
    rw [stopSequences, arrayAt, result_stops, nonEmptyArray_getD, filterMap_asStr]
  limit := by
    rintro n ⟨hget, hpos⟩ hwhole
    obtain ⟨i, hi, hi0, hle⟩ := positiveInt_whole hpos hwhole
    refine limitedBy_of_get ?_ hi0 hle
    rw [result_maxTokens, hget, Option.bind_some, hi, Option.getD_some]
  completionLimit := by
    rintro n ⟨hget, hpos⟩ hwhole hbefore
    obtain ⟨i, hi, hi0, hle⟩ := positiveInt_whole hpos hwhole
    cases hm : (req.get "max_tokens".toList).bind positiveInt with
    | none =>
      refine limitedBy_of_get ?_ hi0 hle
      rw [result_maxTokens, hm, hget, Option.bind_some, hi, Option.getD_none, Option.getD_some]
    | some j =>
      obtain ⟨v, hv, hj⟩ := Option.bind_eq_some_iff.mp hm
      obtain ⟨m, rfl, hmpos, hmwhole, hj0, hjm⟩ := whole_of_positiveInt hj
      refine limitedBy_of_get ?_ hj0 (hjm.trans (hbefore m ⟨hv, hmpos⟩ hmwhole))
      rw [result_maxTokens, hm, Option.getD_some]
  choice := by
    intro c hc
    rw [result_choice]
    exact choice_openai hc

theorem anthropicConstraints : AnthropicConstraints req (anthropicBodyToOpenai serde req) where
  stops := by
    rw [body_stop, stops_back]
    rfl
  limit := by
    rintro n ⟨hget, hpos⟩ hwhole
    obtain ⟨i, hi, hi0, hle⟩ := positiveInt_whole hpos hwhole
    refine limitedBy_of_get ?_ hi0 hle
    rw [body_maxTokens, hget, Option.bind_some, hi, Option.map_some]
  choice := by
    intro c hc
    rw [body_choice]
    by_cases htools : (req.arrayAt "tools".toList).getD [] = []
    · rw [if_pos htools, if_pos (.inr htools)]
      rfl
    · rw [if_neg htools, choice_anthropic hc]
      simp only [htools, or_false]

end Kept

/-- **What a translated request still asks for**, in both directions. -/
theorem translation_keeps_constraints (serde : SerdeJson) (req : Value) (model : Text) :
    OpenaiConstraints req (openaiBodyToAnthropic serde req model) ∧
      AnthropicConstraints req (anthropicBodyToOpenai serde req) :=
  ⟨openaiConstraints serde req model, anthropicConstraints serde req⟩

/-! ## What is widened -/

/-- A request with tools, as OpenAI and Anthropic write it, and a choice among them. -/
def choosing (tools : List Value) (choice : Value) : Value :=
  .obj [("messages".toList, .arr []), ("tool_choice".toList, choice), ("tools".toList, .arr tools)]

def openaiNone : Value :=
  choosing [.obj [("function".toList, .obj [("name".toList, .str ['f'])]),
    ("type".toList, .str "function".toList)]]
    (.str "none".toList)

def unnamedChoice : Value := choosing [] (functionChoice [])

def anthropicNone : Value :=
  choosing [.obj [("name".toList, .str ['f'])]] (.obj [("type".toList, .str "none".toList)])

def choiceWithoutTools : Value := choosing [] (.obj [("type".toList, .str "any".toList)])

def twoLimits : Value :=
  .obj [("max_completion_tokens".toList, .num (.posInt 100)),
    ("max_tokens".toList, .num (.posInt 200))]

def fractionLimit : Value := .obj [("max_tokens".toList, .num (.float (201 / 2)))]

theorem fractionLimit_unread : (fractionLimit.get "max_tokens".toList).bind positiveInt = none := by
  have hden : (201 / 2 : Rat).den ≠ 1 := by norm_num
  exact if_neg fun h => hden h.2

/-- A limit that is not kept. -/
theorem not_limitedBy {out : Value} {k : Nat} {n : Number}
    (h : out.get "max_tokens".toList = some (ofPositive k))
    (hlt : n.value < k) : ¬ LimitedBy out n := by
  rintro ⟨m, ⟨hget, -⟩, hle⟩
  rw [h] at hget
  cases hget
  change ((k : Int).toNat : Rat) ≤ n.value at hle
  rw [Int.toNat_natCast] at hle
  exact absurd hlt (not_lt.mpr hle)

/-- **Constraints that are lost**: a choice of no tool in either direction, one of a function
without a name, any choice without tools, the lower one of two limits, and a limit that is not
whole. -/
theorem constraints_lost :
    ¬ OpenaiKept openaiNone (openaiBodyToAnthropic floatFree openaiNone []) ∧
    ¬ OpenaiKept unnamedChoice (openaiBodyToAnthropic floatFree unnamedChoice []) ∧
    ¬ OpenaiKept twoLimits (openaiBodyToAnthropic floatFree twoLimits []) ∧
    ¬ OpenaiKept fractionLimit (openaiBodyToAnthropic floatFree fractionLimit []) ∧
    ¬ AnthropicKept anthropicNone (anthropicBodyToOpenai floatFree anthropicNone) ∧
    ¬ AnthropicKept choiceWithoutTools (anthropicBodyToOpenai floatFree choiceWithoutTools) ∧
    ¬ AnthropicKept fractionLimit (anthropicBodyToOpenai floatFree fractionLimit) := by
  refine ⟨fun h => ?_, fun h => ?_, fun h => ?_, fun h => ?_, fun h => ?_, fun h => ?_, fun h => ?_⟩
  · have hchoice := h.choice .mustNotCall (by decide)
    rw [result_choice] at hchoice
    exact absurd hchoice (by decide)
  · have hchoice := h.choice (.mustCall []) (by decide)
    rw [result_choice] at hchoice
    exact absurd hchoice (by decide)
  · have hlimit := h.limit (.posInt 100) (.inr ⟨rfl, by norm_num [Number.value]⟩)
    have hget : (openaiBodyToAnthropic floatFree twoLimits []).get "max_tokens".toList =
      some (ofPositive (200 : Nat)) := by
      rw [result_maxTokens]
      rfl
    exact not_limitedBy hget (by norm_num [Number.value]) hlimit
  · have hlimit := h.limit (.float (201 / 2)) (.inl ⟨rfl, by norm_num [Number.value]⟩)
    have hget : (openaiBodyToAnthropic floatFree fractionLimit []).get "max_tokens".toList
        = some (ofPositive (32768 : Nat)) := by
      rw [result_maxTokens, fractionLimit_unread]
      rfl
    exact not_limitedBy hget (by norm_num [Number.value]) hlimit
  · have hchoice := h.choice .mustNotCall (by decide)
    rw [body_choice] at hchoice
    exact absurd hchoice (by decide)
  · have hchoice := h.choice .mustCallSome (by decide)
    rw [body_choice] at hchoice
    exact absurd hchoice (by decide)
  · obtain ⟨m, ⟨hget, -⟩, -⟩ := h.limit (.float (201 / 2)) ⟨rfl, by norm_num [Number.value]⟩
    rw [body_maxTokens, fractionLimit_unread] at hget
    cases hget

end Thegn.Proxy
