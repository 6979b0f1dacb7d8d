import LogTail.Record.Basic

namespace LogTail

/-- What becomes of a batch: it is taken, refused, taken while the token is cancelled, or taken by
an emitter that dies right after. -/
inductive Verdict
  | accept | refuse | acceptAndCancel | acceptAndCrash
  deriving DecidableEq, Repr

/-- `looks` is what the next looks at the token show, and behind these a look shows whether it is
cancelled. Readers work at once: in the order of reading, one of them may still find the token intact
where another one found it cancelled. Accepted batches come newest first. -/
structure Outlet where
  verdict : Nat → Verdict
  offered : Nat
  looks : List Bool
  cancelled : Bool
  accepted : List Batch

namespace Outlet

def answering (verdict : Nat → Verdict) (looks : List Bool) : Outlet := ⟨verdict, 0, looks, false, []⟩

def willing : Outlet := ⟨fun _ => .accept, 0, [], false, []⟩

def batches (o : Outlet) : List Batch := o.accepted.reverse

def look (o : Outlet) : Bool × Outlet :=
  match o.looks with
  | [] => (o.cancelled, o)
  | shown :: looks => (shown, { o with looks, cancelled := o.cancelled || shown })

/-- A look while no reader is at work. It shows what any reader found before. -/
def lookJoined (o : Outlet) : Bool × Outlet := (o.look.2.cancelled, o.look.2)

def cancel (o : Outlet) : Outlet := { o with looks := [], cancelled := true }

def withToken (o : Outlet) (looks : List Bool) : Outlet := { o with looks, cancelled := false }

def renew (o : Outlet) : Outlet := o.withToken []

def take (o : Outlet) (b : Batch) : Outlet :=
  { o with offered := o.offered + 1, accepted := b :: o.accepted }

def offer (o : Outlet) (b : Batch) : Verdict × Outlet :=
  let v := o.verdict o.offered
  match v with
  | .refuse => (v, { o with offered := o.offered + 1 })
  | .acceptAndCancel => (v, (o.take b).cancel)
  | .accept | .acceptAndCrash => (v, o.take b)

end Outlet

end LogTail
