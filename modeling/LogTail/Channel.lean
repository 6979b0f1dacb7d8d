namespace LogTail

structure Channel (α : Type) where
  capacity : Nat
  queue : List α
  senders : Nat
  receivers : Nat

namespace Channel

variable {α : Type}

inductive Sent
  | sent | full | disconnected
  deriving DecidableEq, Repr

inductive Received (α : Type)
  | item (a : α) | empty | disconnected

def bounded (capacity : Nat) : Channel α := ⟨capacity, [], 1, 1⟩

def length (c : Channel α) : Nat := c.queue.length

def isFull (c : Channel α) : Bool := c.capacity ≤ c.queue.length

def send (c : Channel α) (a : α) : Sent × Channel α :=
  if c.receivers = 0 then (.disconnected, c)
  else if c.isFull then (.full, c)
  else (.sent, { c with queue := c.queue ++ [a] })

def receive (c : Channel α) : Received α × Channel α :=
  match c.queue with
  | a :: queue => (.item a, { c with queue })
  | [] => (if c.senders = 0 then .disconnected else .empty, c)

end Channel

end LogTail
