import Thegn.Proxy.Stream

set_option autoImplicit false

/-! # What a client makes of a synthesized stream

Each chunk of the stream adds one thing to what the client has: a piece of the content, a call, the
reason, the usage. The pieces are those of the completion, in order, so what the client has in the
end is what the completion says.
-/

namespace Thegn.Proxy

open Text Value EventStream List

/-! ## What is to be said -/

/-- The content of a choice, if it is a string. -/
def contentOf (choice : Value) : Text :=
  ((choice.get "message".toList).bind (strAt "content".toList)).getD []

def callsOf (choice : Value) : List Call := (messageCalls (choice.get "message".toList)).map callOf

/-- The stream is made of events that a client reads, and ends in the one that says so. -/
structure Ended (serde : SerdeJson) (stream : Text) : Prop where
  events : ∃ payloads, EventStream.events stream = (payloads ++ ["[DONE]".toList]).map plainEvent ∧
    "[DONE]".toList ∉ payloads
  done : (readStream serde stream).done = 1

/-- **The stream says what the completion says**, as one would have it. -/
structure SaysSame (serde : SerdeJson) (resp choice : Value) (stream : Text) : Prop where
  ended : Ended serde stream
  content : (readStream serde stream).content = contentOf choice
  calls : ∀ i, (readStream serde stream).calls i = (callsOf choice)[i]?
  finish : (readStream serde stream).finish =
    some ((choice.strAt "finish_reason".toList).getD "stop".toList)
  usage : (readStream serde stream).usage = (resp.get "usage".toList).map usageOf

/-- A total that is zero is the sum of the other two. -/
def Usage.completed (u : Usage) : Usage :=
  { u with total := if u.total = 0 then u.prompt + u.completion else u.total }

/-- One of the counts is positive. -/
def Usage.Counts (u : Usage) : Prop := 0 < u.total ∨ 0 < u.prompt ∨ 0 < u.completion

instance (u : Usage) : Decidable u.Counts := inferInstanceAs (Decidable (_ ∨ _))

/-- The sum of a usage without a total fits in an `i64`. -/
def Usage.Fits (u : Usage) : Prop :=
  u.total = 0 → -i64Bound ≤ u.prompt + u.completion ∧ u.prompt + u.completion < i64Bound

instance (u : Usage) : Decidable u.Fits := inferInstanceAs (Decidable (_ → _))

/-- What the stream says: an empty reason is a missing one, a usage is said if it counts something,
with its sum if it has no total. -/
structure SaysCompletion (serde : SerdeJson) (resp choice : Value) (stream : Text) : Prop where
  ended : Ended serde stream
  content : (readStream serde stream).content = contentOf choice
  calls : ∀ i, (readStream serde stream).calls i = (callsOf choice)[i]?
  finish : (readStream serde stream).finish =
    some ((choice.nonEmptyAt "finish_reason".toList).getD "stop".toList)
  usage : (∀ u ∈ resp.get "usage".toList, (usageOf u).Fits) → (readStream serde stream).usage
    = ((resp.get "usage".toList).map usageOf).bind fun u => if u.Counts then some u.completed
      else none

/-! ## Numbers -/

theorem asI64_lt {v : Value} {n : Int} (h : asI64 v = some n) : n < i64Bound := by
  unfold asI64 at h
  split at h
  · split_ifs at h with hn
    cases h
    exact hn
  · split_ifs at h with hn
    cases h
    exact hn
  · cases h

theorem asI64_ofI64 {n : Int} (h : n < i64Bound) : asI64 (ofI64 n) = some n := by
  unfold ofI64
  by_cases hn : 0 ≤ n
  · have hcast : ((n.toNat : Nat) : Int) = n := Int.toNat_of_nonneg hn
    rw [if_pos hn, asI64, hcast, if_pos h]
  · rw [if_neg hn, asI64, if_pos h]

theorem i64At_lt (key : Text) (v : Value) : (i64At key v).getD 0 < i64Bound := by
  cases h : i64At key v with
  | none => exact (by decide : (0 : Int) < i64Bound)
  | some n =>
    obtain ⟨w, -, hw⟩ := Option.bind_eq_some_iff.mp h
    exact asI64_lt hw

theorem bmod_lt (n : Int) : n.bmod 18446744073709551616 < i64Bound := by
  have h : n.bmod 18446744073709551616 < (18446744073709551616 + 1) / 2 := Int.bmod_lt (by decide)
  exact h

theorem bmod_of_fits {n : Int} (hlo : -i64Bound ≤ n) (hhi : n < i64Bound) :
    n.bmod 18446744073709551616 = n := by
  unfold i64Bound at hlo hhi
  rw [Int.bmod_eq_iff (by decide), Int.sub_self]
  exact ⟨by omega, by omega, Int.dvd_zero _⟩

/-! ## Chunks are plain -/

theorem plain_ofI64 (n : Int) : Plain (ofI64 n) := by
  unfold ofI64
  split_ifs with h
  · trivial
  · show n < 0
    omega

/-- The keys of a chunk and of its parts are in order. -/
theorem chunkKeys_ascend :
    ["choices".toList, "created".toList, "id".toList, "model".toList, "object".toList,
      "usage".toList].Pairwise (· < ·) ∧
      ["delta".toList, "finish_reason".toList, "index".toList].Pairwise (· < ·) ∧
      ["completion_tokens".toList, "prompt_tokens".toList, "total_tokens".toList].Pairwise (· < ·) ∧
      ["function".toList, "id".toList, "index".toList, "type".toList].Pairwise (· < ·) ∧
      ["arguments".toList, "name".toList].Pairwise (· < ·) := by
  decide

theorem plain_chunk (s : Stamp) (index : Int) {delta finish : Value} (hd : Plain delta)
    (hf : Plain finish) : Plain (chunk s index delta finish) := by
  have hchoice : Plain (.arr [.obj [("delta".toList, delta), ("finish_reason".toList, finish),
      ("index".toList, ofI64 index)]]) :=
    ⟨⟨chunkKeys_ascend.2.1, hd, hf, plain_ofI64 index, trivial⟩, trivial⟩
  have hkeys := chunkKeys_ascend.1.sublist (dropLast_sublist _)
  exact ⟨hkeys, hchoice, plain_ofI64 s.created, trivial, trivial, trivial, trivial⟩

theorem plain_usageChunk (s : Stamp) (prompt completion total : Int) :
    Plain (usageChunk s prompt completion total) := by
  have husage : Plain (.obj [("completion_tokens".toList, ofI64 completion),
    ("prompt_tokens".toList, ofI64 prompt), ("total_tokens".toList, ofI64 total)]) :=
    ⟨chunkKeys_ascend.2.2.1, plain_ofI64 completion, plain_ofI64 prompt, plain_ofI64 total, trivial⟩
  exact ⟨chunkKeys_ascend.1, trivial, plain_ofI64 s.created, trivial, trivial, trivial,
    husage, trivial⟩

theorem plain_callDelta (i : Nat) (tc : Value) : Plain (callDelta i tc) := by
  have hpart : Plain (callPart i tc) :=
    ⟨chunkKeys_ascend.2.2.2.1, ⟨chunkKeys_ascend.2.2.2.2, trivial, trivial, trivial⟩, trivial,
      trivial, trivial, trivial⟩
  exact ⟨pairwise_singleton _ _, ⟨hpart, trivial⟩, trivial⟩

theorem exists_of_mem_usageChunks {s : Stamp} {usage : Option Value} {v : Value}
    (h : v ∈ usageChunks s usage) :
    ∃ prompt completion total, v = usageChunk s prompt completion total := by
  cases usage with
  | none => cases h
  | some u =>
    rw [usageChunks] at h
    split at h
    · exact ⟨_, _, _, mem_singleton.mp h⟩
    · cases h

theorem plain_streamChunks (resp choice : Value) (nowUnix : Int) (fallbackId : Text) :
    ∀ v ∈ streamChunks resp choice nowUnix fallbackId, Plain v := by
  intro v hv
  unfold streamChunks at hv
  simp only [mem_cons, mem_append, mem_map] at hv
  rcases hv with ((rfl | ⟨line, -, rfl⟩) | ⟨⟨tc, i⟩, -, rfl⟩) | rfl | hv
  · exact plain_chunk _ _ ⟨pairwise_singleton _ _, trivial, trivial⟩ trivial
  · exact plain_chunk _ _ ⟨pairwise_singleton _ _, trivial, trivial⟩ trivial
  · exact plain_chunk _ _ (plain_callDelta _ _) trivial
  · exact plain_chunk _ _ ⟨.nil, trivial⟩ trivial
  · obtain ⟨prompt, completion, total, rfl⟩ := exists_of_mem_usageChunks hv
    exact plain_usageChunk _ _ _ _

/-! ## One chunk -/

variable {serde : SerdeJson}

theorem addData_print (h : serde.Compact) {v : Value} (hv : Plain v) (a : Answer) :
    a.addData serde (serde.print v) = a.addChunk v := by
  have hread := h.read_back v hv
  have hne : serde.print v ≠ "[DONE]".toList := by
    intro heq
    rw [heq, h.done] at hread
    cases hread
  rw [Answer.addData, if_neg hne, hread]
  rfl

theorem addChunk_chunk (a : Answer) (s : Stamp) (index : Int) (delta finish : Value) :
    a.addChunk (chunk s index delta finish) = ((delta.arrayAt "tool_calls".toList).getD []).foldl
      Answer.addCall
      { a with
        content := a.content ++ (delta.strAt "content".toList).getD []
        finish := finish.asStr.or a.finish } := rfl

theorem addChunk_role (a : Answer) (s : Stamp) (index : Int) :
    a.addChunk (chunk s index roleDelta .null) = a := by
  rw [addChunk_chunk]
  show { a with content := a.content ++ [] } = a
  rw [append_nil]

theorem addChunk_content (a : Answer) (s : Stamp) (index : Int) (line : Text) :
    a.addChunk (chunk s index (contentDelta line) .null) =
      { a with content := a.content ++ line } := rfl

theorem addChunk_finish (a : Answer) (s : Stamp) (index : Int) (finish : Text) :
    a.addChunk (chunk s index (.obj []) (.str finish)) = { a with finish := some finish } := by
  rw [addChunk_chunk]
  show { a with content := a.content ++ [], finish := some finish } = _
  rw [append_nil]

theorem addChunk_call (a : Answer) (s : Stamp) (index : Int) (i : Nat) (tc : Value)
    (hi : a.calls i = none) :
    a.addChunk (chunk s index (callDelta i tc) .null)
      = { a with calls := Function.update a.calls i (some (callOf tc)) } := by
  have hparts : ((callDelta i tc).arrayAt "tool_calls".toList).getD [] = [callPart i tc] := rfl
  have hindex : callIndex (callPart i tc) = some i := rfl
  have hcall : callOf (callPart i tc) = callOf tc := rfl
  rw [addChunk_chunk, hparts, foldl_cons, foldl_nil]
  show Answer.addCall { a with content := a.content ++ [] } (callPart i tc) = _
  rw [append_nil, Answer.addCall, hindex]
  show { a with
    calls := Function.update a.calls i (some ((a.calls i).elim (callOf (callPart i tc)) _)) } = _
  rw [hi, hcall]
  rfl

theorem addChunk_usage (a : Answer) (s : Stamp) {prompt completion total : Int}
    (hp : prompt < i64Bound) (hc : completion < i64Bound) (ht : total < i64Bound) :
    a.addChunk (usageChunk s prompt completion total) =
    { a with usage := some ⟨prompt, completion, total⟩ } := by
  show { a with usage := some (⟨(asI64 (ofI64 prompt)).getD 0, (asI64 (ofI64 completion)).getD 0,
    (asI64 (ofI64 total)).getD 0⟩ : Usage) } = _
  rw [asI64_ofI64 hp, asI64_ofI64 hc, asI64_ofI64 ht]
  rfl

/-! ## All chunks -/

theorem splitAfterNewline_flatten (cur s : Text) :
    (splitAfterNewline cur s).flatten = cur ++ s := by
  induction s generalizing cur with
  | nil =>
    rw [splitAfterNewline]
    split_ifs with h
    · rw [h]
      rfl
    · simp
  | cons c s ih =>
    rw [splitAfterNewline]
    split_ifs with h
    · rw [flatten_cons, ih]
      simp
    · rw [ih]
      simp

/-- The pieces come together again. -/
theorem foldl_content (s : Stamp) (index : Int) (lines : List Text) (a : Answer) :
    (lines.map fun line => chunk s index (contentDelta line) .null).foldl Answer.addChunk a
      = { a with content := a.content ++ lines.flatten } := by
  induction lines generalizing a with
  | nil =>
    show a = { a with content := a.content ++ [] }
    rw [append_nil]
  | cons line lines ih =>
    rw [map_cons, foldl_cons, addChunk_content, ih, flatten_cons, ← append_assoc]

/-- The calls are collected under their positions, from `k` on. -/
theorem foldl_calls (s : Stamp) (index : Int) (tcs : List Value) (k : Nat) (a : Answer)
    (ha : ∀ i, k ≤ i → a.calls i = none) :
    ∃ calls, ((tcs.zipIdx k).map fun tc => chunk s index (callDelta tc.2 tc.1) .null).foldl
      Answer.addChunk a
        = { a with calls } ∧
      ∀ i, calls i = if i < k then a.calls i else (tcs.map callOf)[i - k]? := by
  induction tcs generalizing k a with
  | nil =>
    refine ⟨a.calls, rfl, fun i => ?_⟩
    by_cases hi : i < k
    · rw [if_pos hi]
    · rw [if_neg hi, ha i (by omega)]
      rfl
  | cons tc tcs ih =>
    have hnext : ∀ i, k + 1 ≤ i → Function.update a.calls k (some (callOf tc)) i = none := by
      intro i hi
      rw [Function.update_of_ne (by omega)]
      exact ha i (by omega)
    obtain ⟨calls, hfold, hcalls⟩ :=
      ih (k + 1) { a with calls := Function.update a.calls k (some (callOf tc)) } hnext
    refine ⟨calls, ?_, fun i => ?_⟩
    · rw [zipIdx_cons, map_cons, foldl_cons,
        addChunk_call a s index k tc (ha k (Nat.le_refl k)), hfold]
    · rw [hcalls i]
      rcases Nat.lt_trichotomy i k with hi | rfl | hi
      · rw [if_pos (by omega), if_pos hi]
        exact Function.update_of_ne (by omega) _ _
      · rw [if_pos (Nat.lt_succ_self i), if_neg (Nat.lt_irrefl i), Nat.sub_self]
        exact Function.update_self _ _ _
      · rw [if_neg (by omega), if_neg (by omega), show i - k = (i - (k + 1)) + 1 by omega]
        rfl

theorem foldl_usage (s : Stamp) (usage : Option Value) (a : Answer) (hnone : a.usage = none) :
    ∃ said, (usageChunks s usage).foldl Answer.addChunk a = { a with usage := said } ∧
      ((∀ u ∈ usage, (usageOf u).Fits) →
        said = (usage.map usageOf).bind fun u => if u.Counts then some u.completed else none) := by
  cases usage with
  | none => exact ⟨none, by rw [← hnone]; rfl, fun _ => rfl⟩
  | some u =>
    by_cases hcounts : (usageOf u).Counts
    · have htotal : (if (usageOf u).total = 0
        then ((usageOf u).prompt + (usageOf u).completion).bmod 18446744073709551616
          else (usageOf u).total) < i64Bound := by
        split_ifs
        · exact bmod_lt _
        · exact i64At_lt _ u
      refine ⟨some ⟨(usageOf u).prompt, (usageOf u).completion, if (usageOf u).total = 0 then
        ((usageOf u).prompt + (usageOf u).completion).bmod 18446744073709551616
          else (usageOf u).total⟩, ?_, fun hfits => ?_⟩
      · have hchunks : usageChunks s (some u) =
          [usageChunk s (usageOf u).prompt (usageOf u).completion
            (if (usageOf u).total = 0 then ((usageOf u).prompt + (usageOf u).completion).bmod
              18446744073709551616
              else (usageOf u).total)] := if_pos hcounts
        rw [hchunks, foldl_cons, foldl_nil]
        exact addChunk_usage a s (i64At_lt _ u) (i64At_lt _ u) htotal
      · rw [Option.map_some, Option.bind_some, if_pos hcounts, Usage.completed]
        by_cases hzero : (usageOf u).total = 0
        · obtain ⟨hlo, hhi⟩ := hfits u rfl hzero
          rw [if_pos hzero, if_pos hzero, bmod_of_fits hlo hhi]
        · rw [if_neg hzero, if_neg hzero]
    · refine ⟨none, ?_, fun _ => ?_⟩
      · have hchunks : usageChunks s (some u) = [] := if_neg hcounts
        rw [hchunks, ← hnone]
        rfl
      · rw [Option.map_some, Option.bind_some, if_neg hcounts]

/-- What a client has when all chunks are read. -/
theorem foldl_streamChunks (resp choice : Value) (nowUnix : Int) (fallbackId : Text) :
    ∃ calls said, (streamChunks resp choice nowUnix fallbackId).foldl Answer.addChunk .empty
        = ⟨contentOf choice, calls,
          some ((choice.nonEmptyAt "finish_reason".toList).getD "stop".toList), said, 0⟩ ∧
      (∀ i, calls i = (callsOf choice)[i]?) ∧
      ((∀ u ∈ resp.get "usage".toList, (usageOf u).Fits) →
        said = ((resp.get "usage".toList).map usageOf).bind fun u => if u.Counts
          then some u.completed else none) := by
  have hcontent : ((choice.get "message".toList).bind (nonEmptyAt "content".toList)).getD [] =
    contentOf choice := by
    rw [contentOf]
    cases choice.get "message".toList with
    | none => rfl
    | some m =>
      rw [Option.bind_some, Option.bind_some, nonEmptyAt]
      cases m.strAt "content".toList with
      | none => rfl
      | some t =>
        by_cases ht : t = []
        · rw [ht]
          rfl
        · rw [Option.filter_some, if_pos (decide_eq_true ht)]
  rw [streamChunks]
  generalize (⟨_, _, _⟩ : Stamp) = stamp
  generalize (i64At "index".toList choice).getD 0 = index
  generalize hfinish : (choice.nonEmptyAt "finish_reason".toList).getD "stop".toList = finish
  obtain ⟨calls, hcalls, hget⟩ :=
    foldl_calls stamp index (messageCalls (choice.get "message".toList)) 0
    { Answer.empty with content := contentOf choice } fun _ _ => rfl
  obtain ⟨said, hsaid, husage⟩ := foldl_usage stamp (resp.get "usage".toList)
    ⟨contentOf choice, calls, some finish, none, 0⟩ rfl
  refine ⟨calls, said, ?_, fun i => ?_, husage⟩
  · rw [foldl_append, foldl_append, foldl_cons, foldl_cons, addChunk_role, foldl_content,
      splitAfterNewline_flatten, hcontent]
    show List.foldl _
      ((List.foldl _ { Answer.empty with content := contentOf choice } _).addChunk _) _ = _
    rw [hcalls, addChunk_finish]
    exact hsaid
  · rw [hget i, if_neg (Nat.not_lt_zero i), Nat.sub_zero]
    rfl

/-! ## The stream -/

theorem foldl_print (h : serde.Compact) (vs : List Value) (hvs : ∀ v ∈ vs, Plain v) (a : Answer) :
    (vs.map serde.print).foldl (Answer.addData serde) a = vs.foldl Answer.addChunk a := by
  induction vs generalizing a with
  | nil => rfl
  | cons v vs ih =>
    rw [map_cons, foldl_cons, foldl_cons, addData_print h (hvs v mem_cons_self),
      ih fun w hw => hvs w (mem_cons_of_mem v hw)]

theorem oneLine_done : OneLine "[DONE]".toList := by
  simp [OneLine]

/-- **What the stream of a completion says.** -/
theorem saysCompletion_stream (h : serde.Compact) (resp choice : Value) (nowUnix : Int)
    (fallbackId : Text) :
    SaysCompletion serde resp choice
      (((streamChunks resp choice nowUnix fallbackId).map serde.print ++ ["[DONE]".toList]).flatMap
        block) := by
  have hplain := plain_streamChunks resp choice nowUnix fallbackId
  obtain ⟨calls, said, hfold, hcalls, husage⟩ := foldl_streamChunks resp choice nowUnix fallbackId
  generalize streamChunks resp choice nowUnix fallbackId = chunks at hplain hfold ⊢
  have hlines : ∀ p ∈ chunks.map serde.print ++ ["[DONE]".toList], OneLine p := by
    intro p hp
    rcases mem_append.mp hp with hp | hp
    · obtain ⟨v, -, rfl⟩ := mem_map.mp hp
      exact h.one_line v
    · rw [mem_singleton.mp hp]
      exact oneLine_done
  have hevents := events_blocks hlines
  have hdata : ∀ ps : List Text, (ps.map plainEvent).map Event.data = ps := by
    intro ps
    rw [map_map]
    exact map_id ps
  have hread : readStream serde ((chunks.map serde.print ++ ["[DONE]".toList]).flatMap block)
      = ⟨contentOf choice, calls,
        some ((choice.nonEmptyAt "finish_reason".toList).getD "stop".toList), said, 1⟩ := by
    rw [readStream, hevents, hdata, foldl_append, foldl_print h chunks hplain, hfold]
    rfl
  have hdone : "[DONE]".toList ∉ chunks.map serde.print := by
    intro hmem
    obtain ⟨v, hv, hprint⟩ := mem_map.mp hmem
    have hback := h.read_back v (hplain v hv)
    rw [hprint, h.done] at hback
    cases hback
  constructor
  · exact ⟨⟨_, hevents, hdone⟩, by rw [hread]⟩
  · rw [hread]
  · rw [hread]
    exact hcalls
  · rw [hread]
  · rw [hread]
    exact husage

theorem stream_eq {raw : Text} {resp choice : Value} (hraw : serde.parse raw = some resp)
    (hchoice : firstChoice resp = some choice) (nowUnix : Int) (fallbackId : Text) :
    openaiCompletionToStream serde raw nowUnix fallbackId
      = some (((streamChunks resp choice nowUnix fallbackId).map serde.print ++
        ["[DONE]".toList]).flatMap block) := by
  rw [openaiCompletionToStream, hraw]
  show (firstChoice resp).bind _ = _
  rw [hchoice]
  rfl

mutual

theorem ofJson_toJson : ∀ v : Value, Plain v → ofJson (toJson v) = v
  | .null, _ => rfl
  | .bool _, _ => rfl
  | .str _, _ => rfl
  | .num (.posInt n), _ => by
    rw [toJson, ofJson, if_pos (Int.natCast_nonneg n)]
    rfl
  | .num (.negInt i), h => by
    rw [Plain] at h
    rw [toJson, ofJson, if_neg (by omega)]
  | .num (.float _), h => by
    rw [Plain] at h
    exact h.elim
  | .arr items, h => by
    rw [Plain] at h
    rw [toJson, ofJson, ofJsons_toJsons items h]
  | .obj fields, h => by
    rw [Plain] at h
    rw [toJson, ofJson, ofJsonFields_toJsonFields fields h.1 h.2]

theorem ofJsons_toJsons : ∀ vs : List Value, PlainItems vs → ofJsons (toJsons vs) = vs
  | [], _ => rfl
  | v :: vs, h => by
    rw [PlainItems] at h
    rw [toJsons, ofJsons, ofJson_toJson v h.1, ofJsons_toJsons vs h.2]

theorem ofJsonFields_toJsonFields : ∀ fields : List (Text × Value),
    (fields.map (·.1)).Pairwise (· < ·) →
    PlainFields fields → ofJsonFields (toJsonFields fields) = fields
  | [], _, _ => rfl
  | (k, v) :: fields, hkeys, h => by
    rw [PlainFields] at h
    obtain ⟨hlt, hkeys⟩ := pairwise_cons.mp hkeys
    rw [toJsonFields, ofJsonFields, ofJson_toJson v h.1, ofJsonFields_toJsonFields fields hkeys h.2,
      insertField_of_lt v hlt]

end

theorem oneLine_of_not_isControl {d : Char} (h : isControl d = false) : d ≠ '\n' ∧ d ≠ '\r' := by
  constructor
  · rintro rfl
    exact absurd h (by decide)
  · rintro rfl
    exact absurd h (by decide)

/-- No escape has a line break. -/
theorem oneLine_escapeChar (c : Char) : OneLine (Resume.escapeChar c) := by
  by_cases hlow : c.toNat < 32
  · have hall : ∀ n < 32, '\n' ∉ Resume.escapeChar (Char.ofNat n) ∧
      '\r' ∉ Resume.escapeChar (Char.ofNat n) := by
      decide
    obtain ⟨n, hn, rfl⟩ := Resume.ofNat_toNat_of_lt hlow
    intro d hd
    constructor
    · rintro rfl
      exact (hall n hn).1 hd
    · rintro rfl
      exact (hall n hn).2 hd
  · by_cases hquote : c = '"'
    · rw [hquote]
      simp [OneLine, Resume.escapeChar]
    · by_cases hback : c = '\\'
      · rw [hback]
        simp [OneLine, Resume.escapeChar]
      · rw [Resume.escapeChar_plain hlow hquote hback]
        intro d hd
        rw [mem_singleton.mp hd]
        constructor
        · rintro rfl
          exact hlow (by decide)
        · rintro rfl
          exact hlow (by decide)

theorem floatFree_compact : floatFree.Compact where
  read_back := by
    intro v hv
    rw [floatFree_parse, ofJson_toJson v hv]
  one_line := fun v => Json.forall_mem_render
    (fun _ hd => oneLine_of_not_isControl (Resume.inLine_structural hd).1) (toJson v)
    fun _ _ c _ => oneLine_escapeChar c
  done := by decide

/-! ## Completions -/

def helloChoice : Value :=
  .obj [("message".toList, .obj [("content".toList, .str "data: [DONE]\n\nhello".toList)])]

/-- A completion with one choice. -/
def completion (choice : Value) (counts : Int × Int × Int) : Value :=
  .obj [("choices".toList, .arr [choice]),
    ("usage".toList, .obj [("completion_tokens".toList, ofI64 counts.2.1),
    ("prompt_tokens".toList, ofI64 counts.1), ("total_tokens".toList, ofI64 counts.2.2)])]

theorem completion_parse {choice : Value} (h : Plain choice) (counts : Int × Int × Int) :
    floatFree.parse (floatFree.print (completion choice counts)) =
      some (completion choice counts) := by
  apply floatFree_compact.read_back
  have hkeys : ["choices".toList, "usage".toList].Pairwise (· < ·) := by decide
  exact ⟨hkeys, ⟨h, trivial⟩, ⟨chunkKeys_ascend.2.2.1, plain_ofI64 _, plain_ofI64 _, plain_ofI64 _,
    trivial⟩, trivial⟩

theorem plain_helloChoice : Plain helloChoice :=
  ⟨pairwise_singleton _ _, ⟨pairwise_singleton _ _, trivial, trivial⟩, trivial⟩

def emptyReason : Value := .obj [("finish_reason".toList, .str [])]

end Thegn.Proxy
