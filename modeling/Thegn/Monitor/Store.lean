import Thegn.Lib.Circular

set_option autoImplicit false

/-! # The series store of the system monitor

The model of `thegn-core/src/series_store.rs`: bounded series with one ring of seconds and rings of
five-second and minute means and maxima, in slots with generations. A value is an exact rational, or
`none` where the source has a value that is not finite.

The two boxes of a tier have one length and are always written together, so they are one ring of
cells.
-/

namespace Thegn.Monitor

open Thegn.Circular

def t0Len : Nat := 600
def t1Len : Nat := 720
def t2Len : Nat := 1440
def cLen : Nat := 120
def t0Ms : Nat := 1000
def t1Ms : Nat := 5000
def t2Ms : Nat := 60000
def capA : Nat := 96
def capB : Nat := 400
def capC : Nat := 512

inductive Class | A | B | C
  deriving DecidableEq

inductive Tier | T0 | T1 | T2
  deriving DecidableEq

structure SeriesKey where
  family : UInt8
  metric : UInt16
  inst : UInt16
  deriving DecidableEq

structure SeriesId where
  slot : Nat
  generation : UInt32
  deriving DecidableEq

structure SeriesBufRow where
  atMs : Nat
  mean : Option ℚ
  max : Option ℚ
  deriving DecidableEq

structure Acc where
  bucket : Nat
  nextBucket : Option Nat
  sum : ℚ
  n : Nat
  max : ℚ
  active : Bool

def Acc.default : Acc :=
  { bucket := 0, nextBucket := none, sum := 0, n := 0, max := 0, active := false }

/-- A mean and a maximum, missing together. -/
structure Cell where
  mean : Option ℚ
  max : Option ℚ
  deriving DecidableEq

def Cell.missing : Cell := ⟨none, none⟩

structure Series where
  key : SeriesKey
  cls : Class
  lastPushMs : Nat
  firstPushMs : Nat
  revision : UInt64
  openSecond : Option Nat
  openValue : Option ℚ
  t0 : Circular (Option ℚ)
  t1 : Option (Circular Cell)
  t2 : Option (Circular Cell)
  t1Acc : Acc
  t2Acc : Acc

/-! ## A series -/

def Series.new (key : SeriesKey) (cls : Class) : Series where
  key := key
  cls := cls
  lastPushMs := 0
  firstPushMs := 0
  revision := 0
  openSecond := none
  openValue := none
  t0 := if cls = .C then filled none cLen (by decide) else filled none t0Len (by decide)
  t1 := if cls = .A ∨ cls = .B then some (filled .missing t1Len (by decide)) else none
  t2 := if cls = .A then some (filled .missing t2Len (by decide)) else none
  t1Acc := .default
  t2Acc := .default

def commitAcc (acc : Acc) (cells : Circular Cell) : Circular Cell :=
  if acc.n = 0 then cells.put acc.bucket .missing
  else cells.put acc.bucket { mean := some (acc.sum / acc.n), max := some acc.max }

/-- A bucket that is open when a later one starts is committed. -/
def retireAcc (acc : Acc) (bucket : Nat) (cells : Circular Cell) : Acc × Circular Cell :=
  if acc.active ∧ acc.bucket ≠ bucket then ({ acc with active := false }, commitAcc acc cells)
  else (acc, cells)

/-- The buckets that were skipped are missing. -/
def skipBuckets (acc : Acc) (bucket : Nat) (cells : Circular Cell) : Circular Cell :=
  match acc.nextBucket with
  | some nextBucket =>
    if nextBucket < bucket then cells.clear nextBucket
      (min (bucket - nextBucket) cells.size) .missing
    else cells
  | none => cells

def startAcc (acc : Acc) (bucket : Nat) : Acc :=
  if acc.active then acc
  else { acc with bucket := bucket, sum := 0, n := 0, max := 0, active := true }

def addValue (acc : Acc) : Option ℚ → Acc
  | some value =>
    { acc with
      sum := acc.sum + value
      n := acc.n + 1
      max := if acc.n + 1 = 1 then value else Max.max acc.max value }
  | none => acc

def updateAcc (acc : Acc) (bucket : Nat) (value : Option ℚ) (cells : Circular Cell)
    (finish : Bool) : Acc × Circular Cell :=
  let (acc, cells) := retireAcc acc bucket cells
  let cells := skipBuckets acc bucket cells
  let acc := addValue (startAcc acc bucket) value
  if finish then ({ acc with active := false, nextBucket := some (bucket + 1) },
    commitAcc acc cells)
  else ({ acc with nextBucket := some (bucket + 1) }, cells)

def Series.closeSecond (s : Series) (second : Nat) (value : Option ℚ) : Series :=
  match s.t1 with
  | none => s
  | some cells =>
    let (t1Acc, t1) := updateAcc s.t1Acc (second / 5) value cells (decide (second % 5 = 4))
    match s.t2 with
    | none => { s with t1Acc := t1Acc, t1 := some t1 }
    | some cells2 =>
      let (t2Acc, t2) := updateAcc s.t2Acc (second / 60) value cells2 (decide (second % 60 = 59))
      { s with t1Acc := t1Acc, t1 := some t1, t2Acc := t2Acc, t2 := some t2 }

/-- The seconds between the open one and a later one are missing. -/
def Series.fillSkipped (s : Series) (opened second : Nat) : Series :=
  let start := max (opened + 1) (second - s.t0.size)
  { s with t0 := s.t0.clear start (second - start) none }

/-- Store the value of a second. -/
def Series.setOpen (s : Series) (atMs : Nat) (value : Option ℚ) : Series :=
  { s with
    openSecond := some (atMs / t0Ms)
    openValue := value
    t0 := s.t0.put (atMs / t0Ms) value
    lastPushMs := atMs
    revision := s.revision + 1 }

def Series.push (s : Series) (atMs : Nat) (value : Option ℚ) : Bool × Series :=
  let second := atMs / t0Ms
  match s.openSecond with
  | none => (true, { s with firstPushMs := atMs }.setOpen atMs value)
  | some opened =>
    if second < opened then (false, s)
    else if opened < second then
      (true, ((s.closeSecond opened s.openValue).fillSkipped opened second).setOpen atMs value)
    else (true, s.setOpen atMs value)

def copyRecentT0 (source dest : Circular (Option ℚ)) (endSecond : Nat) : Circular (Option ℚ) :=
  let count := min source.size dest.size
  let start := endSecond - (count - 1)
  (List.range' start (endSecond + 1 - start)).foldl (fun dest second =>
    dest.put second (source.at second)) dest

/-! ## The store -/

structure SeriesStore where
  slots : List (Option Series)
  generations : List UInt32

def SeriesStore.new : SeriesStore := ⟨[], []⟩

def cap : Class → Nat
  | .A => capA
  | .B => capB
  | .C => capC

def SeriesStore.count (st : SeriesStore) (cls : Class) : Nat :=
  st.slots.countP fun s => s.any fun x => decide (x.cls = cls)

def SeriesStore.find (st : SeriesStore) (key : SeriesKey) : Option Nat :=
  st.slots.findIdx? fun s => s.any fun x => decide (x.key = key)

/-- The series in a slot. -/
def SeriesStore.series (st : SeriesStore) (slot : Nat) : Option Series := (st.slots[slot]?).join

def SeriesStore.generation (st : SeriesStore) (slot : Nat) : UInt32 := st.generations.getD slot 0

def SeriesStore.id (st : SeriesStore) (slot : Nat) : SeriesId := ⟨slot, st.generation slot⟩

/-- Empty a slot, whose ids are stale from then on. -/
def SeriesStore.evict (st : SeriesStore) (slot : Nat) : SeriesStore where
  slots := st.slots.set slot none
  generations := st.generations.set slot (st.generation slot + 1)

def SeriesStore.replace (st : SeriesStore) (slot : Nat) (s : Series) : SeriesStore :=
  { st with slots := st.slots.set slot (some s) }

/-- `min_by_key` on the time of the last push: the first slot with the least. -/
def minByKey : List (Nat × Nat) → Option (Nat × Nat)
  | [] => none
  | x :: xs => some (xs.foldl (fun best y => if y.2 < best.2 then y else best) x)

/-- The class C series with the oldest push, of those that are wanted. -/
def SeriesStore.oldestC (st : SeriesStore) (wanted : Nat → Bool) : Option Nat :=
  (minByKey ((List.range st.slots.length).filterMap fun i =>
    if wanted i then
      match st.series i with
      | some x => if x.cls = .C then some (i, x.lastPushMs) else none
      | none => none
    else none)).map Prod.fst

/-- Put a new series in the first free slot, or in a new one. -/
def SeriesStore.insert (st : SeriesStore) (key : SeriesKey) (cls : Class) :
    SeriesId × SeriesStore :=
  match st.slots.findIdx? Option.isNone with
  | some slot => (st.id slot, st.replace slot (.new key cls))
  | none =>
    let slot := st.slots.length
    let st : SeriesStore := ⟨st.slots ++ [none], st.generations ++ [0]⟩
    (st.id slot, st.replace slot (.new key cls))

def SeriesStore.intern (st : SeriesStore) (key : SeriesKey) (cls : Class) :
    Option SeriesId × SeriesStore :=
  match st.find key with
  | some slot => (some (st.id slot), st)
  | none =>
    if cap cls ≤ st.count cls then
      if cls = .C then
        match st.oldestC fun _ => true with
        | some slot =>
          let (id, st) := (st.evict slot).insert key cls
          (some id, st)
        | none => (none, st)
      else (none, st)
    else
      let (id, st) := st.insert key cls
      (some id, st)

def SeriesStore.idOf (st : SeriesStore) (key : SeriesKey) : Option SeriesId :=
  (st.find key).map st.id

def SeriesStore.get (st : SeriesStore) (id : SeriesId) : Option Series :=
  if st.generations[id.slot]? = some id.generation then st.series id.slot else none

def SeriesStore.push (st : SeriesStore) (id : SeriesId) (atMs : Nat) (value : Option ℚ) :
    Bool × SeriesStore :=
  match st.get id with
  | some s =>
    let (pushed, s) := s.push atMs value
    (pushed, st.replace id.slot s)
  | none => (false, st)

/-- The loop of `evict_stale`. -/
def SeriesStore.evictStale (st : SeriesStore) (nowMs : Nat) : SeriesStore :=
  (List.range st.slots.length).foldl (fun st slot =>
    match st.series slot with
    | some s => if s.cls = .C ∧ 120000 < nowMs - s.lastPushMs then st.evict slot else st
    | none => st) st

/-- What `select` carries over to a series of another class. -/
def Series.carry (s : Series) (cls : Class) : Series :=
  { Series.new s.key cls with
    lastPushMs := s.lastPushMs
    firstPushMs := s.firstPushMs
    revision := s.revision
    openSecond := s.openSecond
    openValue := s.openValue }

def Series.promote (s : Series) : Series :=
  let promoted := s.carry .B
  match s.openSecond with
  | none => promoted
  | some endSecond =>
    let promoted := { promoted with t0 := copyRecentT0 s.t0 promoted.t0 endSecond }
    let start := endSecond - (cLen - 1)
    (List.range' start (endSecond - start)).foldl
      (fun p second => p.closeSecond second (p.t0.at second)) promoted

def Series.demote (s : Series) : Series :=
  let demoted := s.carry .C
  match s.openSecond with
  | none => demoted
  | some endSecond => { demoted with t0 := copyRecentT0 s.t0 demoted.t0 endSecond }

/-- At the cap of class C, evict the oldest of its other series. -/
def SeriesStore.makeRoom (st : SeriesStore) (slot : Nat) : SeriesStore :=
  if capC ≤ st.count .C then
    match st.oldestC fun i => decide (i ≠ slot) with
    | some evicted => st.evict evicted
    | none => st
  else st

def SeriesStore.select (st : SeriesStore) (key : SeriesKey) (selected : Bool) :
    Option SeriesId × SeriesStore :=
  match st.find key with
  | none => (none, st)
  | some slot =>
    match st.series slot with
    | none => (none, st)
    | some s =>
      if selected ∧ s.cls = .C ∧ capB ≤ st.count .B then (none, st)
      else if selected ∧ s.cls = .C then
        let st := st.replace slot s.promote
        (some (st.id slot), st)
      else if ¬ selected ∧ s.cls = .B then
        let st := (st.makeRoom slot).replace slot s.demote
        (some (st.id slot), st)
      else (some (st.id slot), st)

/-! ## Reading -/

/-- `checked_sub(1)`. -/
def checkedPred : Nat → Option Nat
  | 0 => none
  | n + 1 => some n

/-- The period, the cells and the last bucket that may be read of a tier. -/
def Series.tier (s : Series) : Tier → Option (Nat × Nat × (Nat → Cell) × Option Nat)
  | .T0 => some (t0Ms, s.t0.size, fun bucket => ⟨s.t0.at bucket, s.t0.at bucket⟩, s.openSecond)
  | .T1 => s.t1.map fun cells => (t1Ms, cells.size, cells.at, lastCommitted s.t1Acc)
  | .T2 => s.t2.map fun cells => (t2Ms, cells.size, cells.at, lastCommitted s.t2Acc)
where
  /-- The bucket before the open one, or the one that was finished last. -/
  lastCommitted (acc : Acc) : Option Nat :=
    if acc.active then checkedPred acc.bucket else acc.nextBucket.bind checkedPred

def SeriesStore.read (st : SeriesStore) (id : SeriesId) (tier : Tier) (fromMs toMs : Nat)
    (out : List SeriesBufRow) : Bool × List SeriesBufRow :=
  match st.get id with
  | none => (false, out)
  | some s =>
    match s.tier tier with
    | none => (false, [])
    | some (period, len, cells, lastCommitted) =>
      if toMs < fromMs ∨ s.openSecond = none then (true, [])
      else
        let first := max (fromMs / period) (s.firstPushMs / period)
        match lastCommitted with
        | none => (true, [])
        | some lastCommitted =>
          let last := min (toMs / period) lastCommitted
          if last < first then (true, [])
          else
            let start := max (last - (len - 1)) first
            (true, (List.range' start (last + 1 - start)).map fun bucket =>
              { atMs := bucket * period, mean := (cells bucket).mean, max := (cells bucket).max })

end Thegn.Monitor
