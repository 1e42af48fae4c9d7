import Thegn.PrQueue.Row
import Thegn.Lib.Run

set_option autoImplicit false

/-! # Drivers of the PR queue

Any number of drivers call the operations of the queue in any order. The clock never goes back, and
no two admissions are given the same token. A `World` is the database with the clock and a ledger
for each row, which is ghost state: the leases admitted on the row, and since the last operation
that set its attempts, the value set, the admissions and the refunds.
-/

namespace Thegn.PrQueue

open Text Table Run

/-- An admission as the ledger has it. -/
structure Admitted where
  token : Text
  maxAttempts : Nat

/-- The history of a row. -/
structure Ledger where
  /-- All leases admitted on the row, the last one first. -/
  leases : List PrAgentLease
  /-- The value the attempts were last set to. -/
  base : Nat
  /-- The admissions since then, the last one first. -/
  admitted : List Admitted
  /-- The tokens refunded since then. -/
  refunded : List Text

def Ledger.empty : Ledger := { leases := [], base := 0, admitted := [], refunded := [] }

/-- The attempts are set to `n`. -/
def Ledger.set (l : Ledger) (n : Nat) : Ledger :=
  { l with base := n, admitted := [], refunded := [] }

structure World where
  db : PrDb
  ledgers : Text → Ledger
  clock : Int
  /-- The tokens given out so far. -/
  used : List Text

/-- The empty queue, at some time. -/
def World.init (clock : Int) : World :=
  { db := .empty, ledgers := fun _ => .empty, clock, used := [] }

inductive PrOp
  | enqueue (repoRoot : Text) (number : Nat) (worktree : Option Text)
      (branch baseBranch forge : Text)
  | enqueueBound (repoRoot : Text) (number : Nat) (worktree : Option Text)
      (branch baseBranch forge prUrl : Text)
  | rebind (oldKey : Text) (binding : PrRebind)
  | updateStatus (key status : Text) (blocker detail lastHeadOid : Option Text)
  | updateDetail (key detail : Text)
  | setAttempts (key : Text) (attempts : UInt32)
  | admission (request : PrAgentAdmit) (token : Text)
  | renew (lease : PrAgentLease) (leaseUntilMs : Int)
  | release (lease : PrAgentLease) (finished : Option (Text × Text))
  | refund (lease : PrAgentLease) (status detail : Text)
  | recordHead (lease : PrAgentLease) (admittedHead ownHead : Text)
  | recordOutcome (lease : PrAgentLease) (outcome : AgentHeadOutcome)
  | reap (key : Text) (generation : Int) (detail : Text)
  | reserveCiRerun (key : Text) (expectedHead : Option Text) (head : Text)
  | remove (key : Text)
  | clear (repoRoot : Text)

/-- The ledger of a row that is queued: a new row has a new one. -/
def requeued (rows : Table Text PrRow) (key : Text) (l : Ledger) : Ledger :=
  if (rows.lookup key).isSome then l.set 0 else .empty

/-- The database after the operation. -/
def PrOp.apply (op : PrOp) (db : PrDb) (t : Int) : PrDb :=
  match op with
  | .enqueue repo number wt branch base forge => enqueuePr db repo number wt branch base forge t
  | .enqueueBound repo number wt branch base forge url =>
    (enqueueBoundPr db repo number wt branch base forge url t).toOption.getD db
  | .rebind oldKey binding =>
    ((rebindPr db oldKey binding t).toOption.map (·.1)).getD db
  | .updateStatus key status blocker detail head =>
    updatePrStatus db key status blocker detail head t
  | .updateDetail key detail => updatePrDetail db key detail t
  | .setAttempts key attempts => (setPrAgentAttempts db key attempts t).1
  | .admission request token => (admitPrAgent db request t token).1
  | .renew lease stop => (renewPrAgent db lease stop t).1
  | .release lease finished => (releasePrAgent db lease finished t).1
  | .refund lease status detail => (refundPrAgentAttempt db lease status detail t).1
  | .recordHead lease admittedHead ownHead => (recordPrAgentHead db lease admittedHead ownHead t).1
  | .recordOutcome lease outcome => (recordPrAgentOutcome db lease outcome t).1
  | .reap key generation detail => (reapExpiredPrAgent db key generation detail t).1
  | .reserveCiRerun key expectedHead head => (reservePrCiRerun db key expectedHead head t).1
  | .remove key => (removePrEntry db key t).1
  | .clear repo => (clearPrQueue db repo t).1

/-- The ledgers after the operation. -/
def PrOp.account (op : PrOp) (db : PrDb) (ledgers : Text → Ledger) (t : Int) : Text → Ledger :=
  match op with
  | .enqueue repo number _ _ _ forge =>
    let key := makeKey repo forge none number
    Function.update ledgers key (requeued db.rows key (ledgers key))
  | .enqueueBound repo number wt branch base forge url =>
    match enqueueBoundPr db repo number wt branch base forge url t, repoIdentityFromPrUrl url with
    | .ok _, some identity =>
      let key := makeKey repo forge (some identity) number
      let rows := (deleteWhere db.rows (makeKey repo forge none number)
        fun row => row.prUrl.isNone).1
      Function.update ledgers key (requeued rows key (ledgers key))
    | _, _ => ledgers
  | .rebind oldKey binding =>
    match rebindPr db oldKey binding t with
    | .ok (_, newKey) => Function.update ledgers newKey (ledgers oldKey)
    | .error _ => ledgers
  | .setAttempts key attempts =>
    if (setPrAgentAttempts db key attempts t).2 = 1 then
      Function.update ledgers key ((ledgers key).set attempts.toNat)
    else ledgers
  | .admission request token =>
    match (admitPrAgent db request t token).2 with
    | .ok (.admitted lease) =>
      let l := ledgers request.key
      Function.update ledgers request.key { l with
        leases := lease :: l.leases
        admitted := { token, maxAttempts := request.maxAttempts.toNat } :: l.admitted }
    | _ => ledgers
  | .refund lease status detail =>
    match (refundPrAgentAttempt db lease status detail t).2 with
    | .ok true =>
      let l := ledgers lease.key
      Function.update ledgers lease.key { l with refunded := lease.ownerToken :: l.refunded }
    | _ => ledgers
  | _ => ledgers

/-- The lease an operation is called with. -/
def PrOp.lease : PrOp → Option PrAgentLease
  | .renew lease _ => some lease
  | .release lease _ => some lease
  | .refund lease _ _ => some lease
  | .recordHead lease _ _ => some lease
  | .recordOutcome lease _ => some lease
  | _ => none

/-- The operation reports success to the driver that called it with a lease. -/
def PrOp.succeeds (op : PrOp) (db : PrDb) (t : Int) : Bool :=
  match op with
  | .renew lease stop => (renewPrAgent db lease stop t).2.toBool
  | .release lease finished => (releasePrAgent db lease finished t).2
  | .refund lease status detail =>
    (refundPrAgentAttempt db lease status detail t).2.toOption == some true
  | .recordHead lease admittedHead ownHead =>
    (recordPrAgentHead db lease admittedHead ownHead t).2.toOption == some true
  | .recordOutcome lease outcome => (recordPrAgentOutcome db lease outcome t).2
  | _ => false

/-- The token an operation may give out. -/
def PrOp.token : PrOp → Option Text
  | .admission _ token => some token
  | _ => none

/-- One operation at time `t`. It is possible if the clock does not go back and its token is new. -/
def prStep (w : World) (m : PrOp × Int) : Option World :=
  if w.clock ≤ m.2 ∧ ∀ token ∈ m.1.token, token ∉ w.used then
    some
      { db := m.1.apply w.db m.2
        ledgers := m.1.account w.db w.ledgers m.2
        clock := m.2
        used := m.1.token.toList ++ w.used }
  else none

end Thegn.PrQueue
