import Thegn.Tunnel.Frame

set_option autoImplicit false

/-! # Recovery after a bad frame

`resync` of `thegn-core/src/revtunnel.rs` and the loop of `read_loop`
(`thegn-svc/src/revtunnel/mod.rs`) that uses it: after an error bytes are dropped until the buffer
begins with a header that may be one. The search also ends where the buffer holds less than a
header, and the loop then goes on as if it had found one; whether a stream is read the same wherever
it is cut depends on the bytes that a search passes (`readLoop_cut`).
-/

namespace Thegn.Tunnel

open Incremental List

/-! ## The search -/

def FrameDecoder.plausibleHeader (d : FrameDecoder) : Bool :=
  match d.buf with
  | t :: _ :: _ :: _ :: _ :: l0 :: l1 :: l2 :: l3 :: _ =>
    (t == tOpen || t == tData || t == tClose) &&
      decide ((fromBeBytes l0 l1 l2 l3).toNat ≤ maxFramePayload)
  -- fewer bytes than a header
  | _ => true

/-- The loop of `resync`: how many bytes were dropped, or none beyond the bound. -/
def resyncFrom (maxSkip : Nat) : Nat → Bytes → Option Nat × FrameDecoder
  | dropped, [] => (some dropped, { buf := [] })
  | dropped, b :: buf =>
    if (FrameDecoder.mk (b :: buf)).plausibleHeader then (some dropped, { buf := b :: buf })
    else if dropped ≥ maxSkip then (none, { buf := b :: buf })
    else resyncFrom maxSkip (dropped + 1) buf

def FrameDecoder.resync (d : FrameDecoder) (maxSkip : Nat) : Option (Nat × Bytes) × FrameDecoder :=
  let r := resyncFrom maxSkip 0 d.buf
  (r.1.map fun dropped => (dropped, d.buf.take 48), r.2)

/-- The decoder refuses the head of a buffer and leaves the rest. -/
def Fails (buf : Bytes) (e : DecodeError) (left : Bytes) : Prop :=
  (FrameDecoder.mk buf).nextFrame = (.error e, { buf := left })

instance (buf : Bytes) (e : DecodeError) (left : Bytes) : Decidable (Fails buf e left) :=
  inferInstanceAs (Decidable ((FrameDecoder.mk buf).nextFrame = (.error e, { buf := left })))

/-- A buffer with a whole header. -/
theorem nextFrame_header (t i0 i1 i2 i3 l0 l1 l2 l3 : UInt8) (rest : Bytes) :
    (FrameDecoder.mk (t :: i0 :: i1 :: i2 :: i3 :: l0 :: l1 :: l2 :: l3 :: rest)).nextFrame =
      if (fromBeBytes l0 l1 l2 l3).toNat > maxFramePayload then
        (.error (.payloadTooLarge (fromBeBytes l0 l1 l2 l3).toNat),
          { buf := t :: i0 :: i1 :: i2 :: i3 :: l0 :: l1 :: l2 :: l3 :: rest })
      else if rest.length < (fromBeBytes l0 l1 l2 l3).toNat then
        (.ok none, { buf := t :: i0 :: i1 :: i2 :: i3 :: l0 :: l1 :: l2 :: l3 :: rest })
      else ((frameOf t (fromBeBytes i0 i1 i2 i3) (rest.take (fromBeBytes l0 l1 l2 l3).toNat)).map
        some,
        { buf := rest.drop (fromBeBytes l0 l1 l2 l3).toNat }) := rfl

theorem plausibleHeader_header (t i0 i1 i2 i3 l0 l1 l2 l3 : UInt8) (rest : Bytes) :
    (FrameDecoder.mk (t :: i0 :: i1 :: i2 :: i3 :: l0 :: l1 :: l2 :: l3 :: rest)).plausibleHeader =
      ((t == tOpen || t == tData || t == tClose) &&
        decide ((fromBeBytes l0 l1 l2 l3).toNat ≤ maxFramePayload)) := rfl

theorem plausibleHeader_short {buf : Bytes} (h : buf.length < 9) :
    (FrameDecoder.mk buf).plausibleHeader = true := by
  unfold FrameDecoder.plausibleHeader
  split
  · rename_i hbuf
    have hbuf' : buf = _ := hbuf
    rw [hbuf'] at h
    simp only [length_cons] at h
    omega
  · rfl

/-- An error of the length leaves the buffer, an error of the type has taken a frame. -/
theorem Fails.cases {buf left : Bytes} {e : DecodeError} (h : Fails buf e left) :
    9 ≤ buf.length ∧ ((∃ len, e = .payloadTooLarge len) ∧ left = buf ∧
      (FrameDecoder.mk buf).plausibleHeader = false ∨
      (∃ t, e = .unknownType t) ∧ left.length + 9 ≤ buf.length) := by
  rcases header_cases buf with hshort | ⟨t, i0, i1, i2, i3, l0, l1, l2, l3, rest, rfl⟩
  · rw [Fails, nextFrame_short hshort] at h
    cases h
  · refine ⟨by simp only [length_cons]; omega, ?_⟩
    rw [Fails, nextFrame_header] at h
    split_ifs at h with hlarge hpart
    · cases h
      refine .inl ⟨⟨_, rfl⟩, rfl, ?_⟩
      rw [plausibleHeader_header, decide_eq_false (Nat.not_le_of_lt hlarge), Bool.and_false]
    · cases (Prod.mk.inj h).1
    · obtain ⟨hframe, hleft⟩ := Prod.mk.inj h
      obtain rfl := congrArg FrameDecoder.buf hleft
      refine .inr ⟨?_, ?_⟩
      · unfold frameOf at hframe
        split_ifs at hframe
        · cases hframe
        · cases hframe
        · cases hframe
        · cases hframe
          exact ⟨t, rfl⟩
      · simp only [length_cons, length_drop]
        omega

theorem Fails.append {buf left : Bytes} {e : DecodeError} (h : Fails buf e left) (later : Bytes) :
    Fails (buf ++ later) e (left ++ later) := by
  rcases header_cases buf with hshort | ⟨t, i0, i1, i2, i3, l0, l1, l2, l3, rest, rfl⟩
  · rw [Fails, nextFrame_short hshort] at h
    cases h
  · rw [Fails, nextFrame_header] at h
    rw [Fails]
    simp only [cons_append]
    rw [nextFrame_header]
    split_ifs at h with hlarge hpart
    · cases h
      rw [if_pos hlarge]
      rfl
    · cases (Prod.mk.inj h).1
    · obtain ⟨hframe, hleft⟩ := Prod.mk.inj h
      obtain rfl := congrArg FrameDecoder.buf hleft
      rw [if_neg hlarge, if_neg (by rw [length_append]; omega), take_append_of_le_length (by omega),
        drop_append_of_le_length (by omega), hframe]

theorem resyncFrom_length {maxSkip dropped : Nat} {buf : Bytes} :
    (resyncFrom maxSkip dropped buf).2.buf.length ≤ buf.length := by
  induction buf generalizing dropped with
  | nil => exact le_rfl
  | cons b buf ih =>
    rw [resyncFrom]
    split_ifs
    · exact le_rfl
    · exact le_rfl
    · exact Nat.le_succ_of_le ih

/-- The loop gets on: a search that goes on leaves less than was there before the error. -/
theorem resync_length {d d' d'' : FrameDecoder} {e : DecodeError} {r : Nat × Bytes}
    (h : d.nextFrame = (.error e, d'))
    (h' : d'.resync maxResyncSkip = (some r, d'')) : d''.buf.length < d.buf.length := by
  have hd'' : d'' = (resyncFrom maxResyncSkip 0 d'.buf).2 := congrArg Prod.snd h'.symm
  have hfails : Fails d.buf e d'.buf := h
  obtain ⟨hlen, ⟨-, hleft, hno⟩ | ⟨-, hleft⟩⟩ := hfails.cases
  · cases hbuf : d'.buf with
    | nil =>
      rw [← hleft, hbuf] at hlen
      exact absurd hlen (by decide)
    | cons b buf =>
      rw [← hleft, hbuf] at hno
      have hle := @resyncFrom_length maxResyncSkip 1 buf
      rw [hd'', ← hleft, hbuf, resyncFrom, if_neg (by rw [hno]; exact Bool.false_ne_true),
        if_neg (by decide), length_cons]
      exact Nat.lt_succ_of_le hle
  · have hle := @resyncFrom_length maxResyncSkip 0 d'.buf
    rw [hd'']
    omega

/-! ## The read loop -/

/-- The inner loop of `read_loop`: the frames, and the error that ends the tunnel. -/
def FrameDecoder.readFrames (d : FrameDecoder) : List Frame × Option DecodeError × FrameDecoder :=
  match h : d.nextFrame with
  | (.ok (some f), d') => (f :: d'.readFrames.1, d'.readFrames.2)
  | (.ok none, d') => ([], none, d')
  | (.error e, d') =>
    match h' : d'.resync maxResyncSkip with
    | (some _, d'') => d''.readFrames
    | (none, d'') => ([], some e, d'')
termination_by d.buf.length
decreasing_by
  · exact nextFrame_length h
  · exact resync_length h h'

/-- The reading end: what was delivered, and the error that ended it. -/
structure ReadLoop where
  dec : FrameDecoder
  frames : List Frame
  fatal : Option DecodeError

def ReadLoop.new : ReadLoop := { dec := .new, frames := [], fatal := none }

/-- One chunk arrives. -/
def ReadLoop.read (r : ReadLoop) (chunk : Bytes) : ReadLoop :=
  if r.fatal.isSome then r
  else
    let out := (r.dec.push chunk).readFrames
    { dec := out.2.2, frames := r.frames ++ out.1, fatal := out.2.1 }

def readLoop (chunks : List Bytes) : ReadLoop := chunks.foldl ReadLoop.read .new

/-- What a reader of the tunnel sees: the frames, and whether it is alive. -/
def ReadLoop.outcome (r : ReadLoop) : List Frame × Bool := (r.frames, r.fatal.isNone)

theorem readFrames_item {d d' : FrameDecoder} {f : Frame} (h : d.nextFrame = (.ok (some f), d')) :
    d.readFrames = (f :: d'.readFrames.1, d'.readFrames.2) := by
  rw [FrameDecoder.readFrames]
  split
  · rename_i heq
    rw [h] at heq
    cases heq
    rfl
  · rename_i heq
    rw [h] at heq
    cases heq
  · rename_i heq
    rw [h] at heq
    cases heq

theorem readFrames_more {d e : FrameDecoder} (h : d.nextFrame = (.ok none, e)) :
    d.readFrames = ([], none, e) := by
  rw [FrameDecoder.readFrames]
  split
  · rename_i heq
    rw [h] at heq
    cases heq
  · rename_i heq
    rw [h] at heq
    cases heq
    rfl
  · rename_i heq
    rw [h] at heq
    cases heq

theorem readFrames_resync {d d' d'' : FrameDecoder} {e : DecodeError} {r : Nat × Bytes}
    (h : d.nextFrame = (.error e, d')) (h' : d'.resync maxResyncSkip = (some r, d'')) :
    d.readFrames = d''.readFrames := by
  rw [FrameDecoder.readFrames]
  split
  · rename_i heq
    rw [h] at heq
    cases heq
  · rename_i heq
    rw [h] at heq
    cases heq
  · rename_i heq
    rw [h] at heq
    cases heq
    split
    · rename_i heq
      rw [h'] at heq
      cases heq
      rfl
    · rename_i heq
      rw [h'] at heq
      cases heq

/-! ## Streams that are read the same -/

/-- The length of the header is out of bounds. -/
def Oversized (buf : Bytes) : Prop := ∃ len, Fails buf (.payloadTooLarge len) buf

/-- **Searches pass oversized headers only.** Reading a whole stream, and inside a search with the
bytes that it may still drop: each byte that a search drops begins a header whose length is out of
bounds, until a plausible header begins or less than a header is left of the stream. -/
inductive Aligned : Option Nat → Bytes → List Frame → Prop
  | more {s} (h : next s = .more) : Aligned none s []
  | item {s f rest fs} (h : next s = .item f rest) (hrest : Aligned none rest fs) :
      Aligned none s (f :: fs)
  | fail {s e left fs} (h : Fails s e left) (hleft : Aligned (some maxResyncSkip) left fs) :
      Aligned none s fs
  | short {n s} (h : s.length < 9) : Aligned (some n) s []
  | header {n s fs} (hlen : 9 ≤ s.length) (h : (FrameDecoder.mk s).plausibleHeader = true)
      (hs : Aligned none s fs) : Aligned (some n) s fs
  | drop {n b s fs} (h : Oversized (b :: s)) (hs : Aligned (some n) s fs) :
      Aligned (some (n + 1)) (b :: s) fs

theorem Aligned.mono {n n' : Nat} {s : Bytes} {fs : List Frame} (h : Aligned (some n) s fs)
    (hle : n ≤ n') : Aligned (some n') s fs := by
  generalize hmode : some n = mode at h
  induction h generalizing n n' with
  | more _ => cases hmode
  | item _ _ _ => cases hmode
  | fail _ _ _ => cases hmode
  | short hs => exact .short hs
  | header hlen hp hs _ => exact .header hlen hp hs
  | @drop m b s fs hover _ ih =>
    obtain rfl := Option.some.inj hmode
    obtain ⟨n', rfl⟩ :=
      Nat.exists_eq_succ_of_ne_zero (Nat.ne_of_gt (Nat.lt_of_lt_of_le (Nat.succ_pos m) hle))
    exact .drop hover (ih (Nat.le_of_succ_le_succ hle) rfl)

/-- A search that has to stop goes on as reading does. -/
theorem Aligned.resume {n : Nat} {s : Bytes} {fs : List Frame} (h : Aligned (some n) s fs)
    (hle : n ≤ maxResyncSkip) : Aligned none s fs := by
  cases h with
  | short hs => exact .more (next_short hs)
  | header _ _ hs => exact hs
  | drop hover hs =>
    have hover' := hover
    obtain ⟨len, hfail⟩ := hover'
    exact .fail hfail (.mono (.drop hover hs) hle)

theorem Fails.next {buf left : Bytes} {e : DecodeError} (h : Fails buf e left) :
    next buf = .fail e := by
  have h' : (FrameDecoder.mk buf).nextFrame = (.error e, { buf := left }) := h
  rw [Tunnel.next, h']

/-! ### Reading the beginning of a stream -/

section Beginning

variable {s later : Bytes} {fs : List Frame}

theorem Aligned.of_item {f : Frame} {rest : Bytes} (h : Aligned none s fs)
    (hnext : next s = .item f rest) : ∃ fs', fs = f :: fs' ∧ Aligned none rest fs' := by
  cases h with
  | more hmore =>
    rw [hnext] at hmore
    cases hmore
  | item hitem hrest =>
    rw [hnext] at hitem
    cases hitem
    exact ⟨_, rfl, hrest⟩
  | fail hfail _ =>
    rw [hfail.next] at hnext
    cases hnext

theorem Aligned.of_fail {e : DecodeError} {left : Bytes} (h : Aligned none s fs)
    (hfail : Fails s e left) : Aligned (some maxResyncSkip) left fs := by
  cases h with
  | more hmore =>
    rw [hfail.next] at hmore
    cases hmore
  | item hitem _ =>
    rw [hfail.next] at hitem
    cases hitem
  | fail hfail' hleft =>
    have heq : _ = _ := hfail.symm.trans hfail'
    cases heq
    exact hleft

theorem Aligned.of_more (h : Aligned none s fs) (hmore : next s = .more) : fs = [] := by
  cases h with
  | more _ => rfl
  | item hitem _ =>
    rw [hmore] at hitem
    cases hitem
  | fail hfail _ =>
    rw [hfail.next] at hmore
    cases hmore

end Beginning

/-- What the head of a buffer looks like does not change by what arrives later. -/
theorem plausibleHeader_append {s : Bytes} (h : 9 ≤ s.length) (later : Bytes) :
    (FrameDecoder.mk (s ++ later)).plausibleHeader = (FrameDecoder.mk s).plausibleHeader := by
  rcases header_cases s with hshort | ⟨t, i0, i1, i2, i3, l0, l1, l2, l3, rest, rfl⟩
  · omega
  · rfl

/-- A search in the beginning of a stream ends where reading the stream goes on. -/
theorem resyncFrom_aligned {later : Bytes} {fs : List Frame} (s : Bytes) : ∀ {n dropped : Nat},
    n + dropped = maxResyncSkip → Aligned (some n) (s ++ later) fs →
      ∃ k s', resyncFrom maxResyncSkip dropped s = (some k, { buf := s' }) ∧
      Aligned none (s' ++ later) fs := by
  induction s with
  | nil =>
    intro n dropped hn h
    exact ⟨dropped, [], rfl, h.resume (by omega)⟩
  | cons b s ih =>
    intro n dropped hn h
    by_cases hplausible : (FrameDecoder.mk (b :: s)).plausibleHeader = true
    · refine ⟨dropped, b :: s, ?_, h.resume (by omega)⟩
      rw [resyncFrom, if_pos hplausible]
    · have hlen : 9 ≤ (b :: s).length := by
        by_contra hlt
        exact hplausible (plausibleHeader_short (by omega))
      rw [cons_append] at h
      cases h with
      | short hs =>
        rw [length_cons, length_append] at hs
        rw [length_cons] at hlen
        omega
      | header _ hp _ =>
        rw [← cons_append, plausibleHeader_append hlen] at hp
        exact absurd hp hplausible
      | @drop m _ _ _ _ hrest =>
        obtain ⟨k, s', hk, hs'⟩ := ih (show m + (dropped + 1) = maxResyncSkip by omega) hrest
        refine ⟨k, s', ?_, hs'⟩
        rw [resyncFrom, if_neg hplausible, if_neg (by omega), hk]

/-- **What arrives is read as the beginning of the stream.** -/
theorem readFrames_aligned {later : Bytes} (n : Nat) :
    ∀ {s : Bytes} {fs : List Frame}, s.length ≤ n →
    Aligned none (s ++ later) fs →
      ∃ fs1 fs2 s', (FrameDecoder.mk s).readFrames = (fs1, none, { buf := s' }) ∧ fs = fs1 ++ fs2 ∧
        Aligned none (s' ++ later) fs2 ∧ next s' = .more := by
  induction n with
  | zero =>
    intro s fs hn h
    obtain rfl := eq_nil_of_length_eq_zero (Nat.le_zero.mp hn)
    exact ⟨[], fs, [], readFrames_more rfl, rfl, h, rfl⟩
  | succ n ih =>
    intro s fs hn h
    cases hnext : (FrameDecoder.mk s).nextFrame with
    | mk answer d =>
      obtain ⟨left⟩ := d
      match answer with
      | .ok none =>
        have hmore : next s = .more := by rw [next, hnext]
        have hsame := nextFrame_of_more hmore
        rw [hnext] at hsame
        obtain rfl : left = s := congrArg FrameDecoder.buf (Prod.mk.inj hsame).2
        exact ⟨[], fs, left, readFrames_more hnext, rfl, h, hmore⟩
      | .ok (some f) =>
        have hitem : next s = .item f left := by rw [next, hnext]
        obtain ⟨fs', rfl, hrest⟩ := h.of_item (stable_next.item hitem later)
        have hlt : left.length < s.length := nextFrame_length hnext
        obtain ⟨fs1, fs2, s', hread, rfl, hs', hmore⟩ := ih (s := left) (by omega) hrest
        refine ⟨f :: fs1, fs2, s', ?_, rfl, hs', hmore⟩
        rw [readFrames_item hnext, hread]
      | .error e =>
        have hfail : Fails s e left := hnext
        obtain ⟨k, s1, hk, hs1⟩ :=
          resyncFrom_aligned left (Nat.add_zero maxResyncSkip) (h.of_fail (hfail.append later))
        have hresync : (FrameDecoder.mk left).resync maxResyncSkip =
          (some (k, left.take 48), { buf := s1 }) := by
          rw [FrameDecoder.resync]
          simp only [hk, Option.map_some]
        have hlt : s1.length < s.length := resync_length hnext hresync
        obtain ⟨fs1, fs2, s', hread, heq, hs', hmore⟩ := ih (s := s1) (by omega) hs1
        exact ⟨fs1, fs2, s', by rw [readFrames_resync hnext hresync, hread], heq, hs', hmore⟩

/-- The loop from any state that is alive. -/
theorem foldl_read_aligned (chunks : List Bytes) : ∀ {r : ReadLoop} {fs : List Frame},
    r.fatal = none →
    next r.dec.buf = .more → Aligned none (r.dec.buf ++ chunks.flatten) fs →
      (chunks.foldl ReadLoop.read r).outcome = (r.frames ++ fs, true) := by
  induction chunks with
  | nil =>
    intro r fs hfatal hmore h
    rw [flatten_nil, append_nil] at h
    rw [foldl_nil, h.of_more hmore, append_nil, ReadLoop.outcome, hfatal]
    rfl
  | cons chunk chunks ih =>
    intro r fs hfatal _ h
    rw [flatten_cons, ← append_assoc] at h
    obtain ⟨fs1, fs2, s', hread, rfl, hs', hmore'⟩ := readFrames_aligned _ le_rfl h
    have hstep : r.read chunk =
        { dec := { buf := s' }, frames := r.frames ++ fs1, fatal := none } := by
      have hpush : (r.dec.push chunk).readFrames = (fs1, none, { buf := s' }) := hread
      rw [ReadLoop.read, hfatal, if_neg (by simp)]
      simp only [hpush]
    rw [foldl_cons, hstep, ih rfl hmore' hs', append_assoc]

/-- **Error recovery does not depend on where the stream is cut**, as long as searches pass
oversized headers only. -/
theorem readLoop_cut {stream : Bytes} (h : ∃ fs, Aligned none stream fs)
    {chunks chunks' : List Bytes}
    (hchunks : chunks.flatten = stream) (hchunks' : chunks'.flatten = stream) :
    (readLoop chunks).outcome = (readLoop chunks').outcome := by
  obtain ⟨fs, hfs⟩ := h
  have hread : ∀ {c : List Bytes}, c.flatten = stream → (readLoop c).outcome = (fs, true) := by
    intro c hc
    rw [← hc] at hfs
    exact foldl_read_aligned c (r := .new) rfl rfl hfs
  rw [hread hchunks, hread hchunks']

/-- A frame of an unknown type, one byte of garbage, and a frame. -/
def garbled : List Bytes := [encodeParts 9 0 [], 7 :: encode (.opened 256)]

theorem aligned_unknown : Aligned none (encodeParts 9 0 [] ++ encode (.opened 256)) [.opened 256] :=
  .fail (show Fails _ (.unknownType 9) (encode (.opened 256)) by decide)
    (.header (by decide) (by decide) (.item (show next _ = .item (.opened 256) [] by decide)
      (.more (by decide))))

/-- The tunnel reads over a frame of an unknown type, wherever it is cut. -/
theorem readLoop_cut_unknown :
    (readLoop [encodeParts 9 0 [] ++ encode (.opened 256)]).outcome =
      (readLoop [encodeParts 9 0 [], encode (.opened 256)]).outcome :=
  readLoop_cut ⟨_, aligned_unknown⟩ (by decide) (by decide)

/-- In one piece the frame behind the garbage is delivered. -/
theorem outcome_garbled_whole : (readLoop [garbled.flatten]).outcome = ([.opened 256], true) := by
  have hfail : (FrameDecoder.mk garbled.flatten).nextFrame =
      (.error (.unknownType 9), { buf := 7 :: encode (.opened 256) }) := by decide
  have hresync : (FrameDecoder.mk (7 :: encode (.opened 256))).resync maxResyncSkip =
      (some (1, 7 :: encode (.opened 256)), { buf := encode (.opened 256) }) := by decide
  have hitem : (FrameDecoder.mk (encode (.opened 256))).nextFrame =
    (.ok (some (.opened 256)), { buf := [] }) := by
    decide
  have hread : (FrameDecoder.new.push garbled.flatten).readFrames =
    ([.opened 256], none, { buf := [] }) := by
    rw [show FrameDecoder.new.push garbled.flatten = FrameDecoder.mk garbled.flatten from rfl,
      readFrames_resync hfail hresync, readFrames_item hitem,
      readFrames_more (e := { buf := [] }) rfl]
  rw [readLoop, foldl_cons, foldl_nil, ReadLoop.read]
  simp only [ReadLoop.new, hread]
  rfl

/-- Cut behind the bad frame it is lost: the search ends with the first piece, and the garbage is
then read as the head of a frame. -/
theorem outcome_garbled_cut : (readLoop garbled).outcome = ([], true) := by
  have hfail : (FrameDecoder.mk (encodeParts 9 0 [])).nextFrame =
    (.error (.unknownType 9), { buf := [] }) := by decide
  have hresync : (FrameDecoder.mk []).resync maxResyncSkip = (some (0, []), { buf := [] }) := by
    decide
  have hfirst : (FrameDecoder.new.push (encodeParts 9 0 [])).readFrames =
    ([], none, { buf := [] }) := by
    rw [show FrameDecoder.new.push (encodeParts 9 0 []) = FrameDecoder.mk (encodeParts 9 0 [])
      from rfl, readFrames_resync hfail hresync, readFrames_more (e := { buf := [] }) rfl]
  have hfail' : (FrameDecoder.mk (7 :: encode (.opened 256))).nextFrame =
      (.error (.unknownType 7), { buf := [0] }) := by decide
  have hresync' : (FrameDecoder.mk [0]).resync maxResyncSkip = (some (0, [0]), { buf := [0] }) := by
    decide
  have hsecond : ((FrameDecoder.mk []).push (7 :: encode (.opened 256))).readFrames =
    ([], none, { buf := [0] }) := by
    rw [show (FrameDecoder.mk []).push (7 :: encode (.opened 256)) =
      FrameDecoder.mk (7 :: encode (.opened 256)) from rfl,
      readFrames_resync hfail' hresync', readFrames_more (e := { buf := [0] }) rfl]
  have hread : ReadLoop.new.read (encodeParts 9 0 []) =
    { dec := { buf := [] }, frames := [], fatal := none } := by
    rw [ReadLoop.read]
    simp only [ReadLoop.new, hfirst]
    rfl
  have hread' : ReadLoop.read { dec := { buf := [] }, frames := [], fatal := none }
      (7 :: encode (.opened 256)) =
      { dec := { buf := [0] }, frames := [], fatal := none } := by
    rw [ReadLoop.read]
    simp only [hsecond]
    rfl
  rw [readLoop, garbled, foldl_cons, foldl_cons, foldl_nil, hread, hread']
  rfl

/-- The same stream is read in two ways. -/
theorem readLoop_garbled : [garbled.flatten].flatten = garbled.flatten ∧
    (readLoop [garbled.flatten]).outcome ≠ (readLoop garbled).outcome := by
  refine ⟨flatten_singleton, ?_⟩
  rw [outcome_garbled_whole, outcome_garbled_cut]
  decide

end Thegn.Tunnel
