import LogTail.Utf8

namespace LogTail.Record

/-- A piece and the number of bytes it spans, terminator included. -/
structure Piece where
  span : Nat
  body : Bytes
  deriving DecidableEq, Repr

/-- How a block is searched: up to a line feed, until the limit, or to its end with some room left.
The bytes passed so far come last first. -/
inductive Sweep
  | line (passed rest : Bytes)
  | full (passed rest : Bytes)
  | dry (passed : Bytes) (room : Nat)

def sweep : Nat → Bytes → Bytes → Sweep
  | 0, block, passed => .full passed block
  | room + 1, [], passed => .dry passed (room + 1)
  | room + 1, b :: t, passed => if b = 10 then .line passed t else sweep room t (b :: passed)

def dropReturn : Bytes → Bytes
  | [] => []
  | b :: t => if b = 13 then t else b :: t

def firstByte : List Bytes → Option (UInt8 × List Bytes)
  | [] => none
  | [] :: blocks => firstByte blocks
  | (b :: t) :: blocks => some (b, t :: blocks)

/-- A piece of full length. Ends it with a carriage return, then the next byte tells whether that
is part of a terminator; without a next byte the piece waits. -/
def cutFull (passed : Bytes) (blocks : List Bytes) : Option (Piece × List Bytes) :=
  if passed.head? = some 13 then
    match firstByte blocks with
    | none => none
    | some (b, more) =>
      if b = 10 then some (⟨passed.length + 1, (dropReturn passed).reverse⟩, more)
      else some (⟨passed.length, passed.reverse⟩, blocks)
  else some (⟨passed.length, passed.reverse⟩, blocks)

def nextFrom : Nat → Bytes → List Bytes → Option (Piece × List Bytes)
  | _, _, [] => none
  | room, passed, block :: blocks =>
    match sweep room block passed with
    | .line passed rest => some (⟨passed.length + 1, (dropReturn passed).reverse⟩, rest :: blocks)
    | .full passed rest => cutFull passed (rest :: blocks)
    | .dry passed room => nextFrom room passed blocks

/-- The next piece and the blocks behind it. A line that is not finished yields no piece. -/
def next (limit : Nat) (blocks : List Bytes) : Option (Piece × List Bytes) := nextFrom limit [] blocks

/-- All pieces, in order; `fuel` is at least the number of bytes. -/
def piecesFrom (limit : Nat) : Nat → List Bytes → List Piece → List Piece
  | 0, _, acc => acc.reverse
  | fuel + 1, blocks, acc =>
    match next limit blocks with
    | none => acc.reverse
    | some (p, blocks) => piecesFrom limit fuel blocks (p :: acc)

def blocksFrom (size : Nat) : Nat → Bytes → List Bytes → List Bytes
  | 0, _, acc => acc
  | fuel + 1, bs, acc =>
    match bs with
    | [] => acc
    | bs => blocksFrom size fuel (bs.drop size) (bs.take size :: acc)

def blockSize : Nat := 8192

def blocks (bs : Bytes) : List Bytes := (blocksFrom blockSize (bs.length + 1) bs []).reverse

def pieces (limit : Nat) (bs : Bytes) : List Piece := piecesFrom limit bs.length (blocks bs) []

end LogTail.Record
