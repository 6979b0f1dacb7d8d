import LogTail.Unicode.Table

namespace LogTail.Unicode

/-- Ranges of code points, both ends included, in ascending order and apart. -/
abbrev CharSet := List (Nat × Nat)

namespace CharSet

def mem (n : Nat) : CharSet → Bool
  | [] => false
  | (a, b) :: t => if n < a then false else n ≤ b || mem n t

def contains (s : CharSet) (c : Char) : Bool := mem c.toNat s

def join : CharSet → CharSet → CharSet
  | [], acc => acc.reverse
  | r :: t, [] => join t [r]
  | (a, b) :: t, (c, d) :: acc =>
    if a ≤ d + 1 then join t ((c, max b d) :: acc) else join t ((a, b) :: (c, d) :: acc)

def ofRanges (rs : List (Nat × Nat)) : CharSet :=
  join ((rs.filter fun r => r.1 ≤ r.2).mergeSort fun r s => r.1 ≤ s.1) []

def union (s t : CharSet) : CharSet := ofRanges (s ++ t)

def lastChar : Nat := 0x10FFFF

def full : CharSet := [(0, 0xD7FF), (0xE000, lastChar)]

def gaps (start : Nat) : CharSet → CharSet
  | [] => if start ≤ lastChar then [(start, lastChar)] else []
  | (a, b) :: t => if start < a then (start, a - 1) :: gaps (b + 1) t else gaps (b + 1) t

def complement (s : CharSet) : CharSet := gaps 0 (union s [(0xD800, 0xDFFF)])

def inter (s t : CharSet) : CharSet := complement (union (complement s) (complement t))

def diff (s t : CharSet) : CharSet := complement (union (complement s) t)

def ofChar (c : Char) : CharSet := [(c.toNat, c.toNat)]

end CharSet

def hexDigit (c : Char) : Nat :=
  if '0' ≤ c ∧ c ≤ '9' then c.toNat - 48 else if 'a' ≤ c ∧ c ≤ 'f' then c.toNat - 87 else 0

/-- The numbers of a table, written in hexadecimal and apart by blanks. -/
def numbers : List Char → Option Nat → List Nat → List Nat
  | [], n, acc => (n.toList ++ acc).reverse
  | c :: t, n, acc =>
    if c = ' ' ∨ c = '\n' then numbers t none (n.toList ++ acc)
    else numbers t (some (n.getD 0 * 16 + hexDigit c)) acc

/-- A range is told by the gap behind the one before it and how many characters follow its first. -/
def ranges : Nat → List Nat → CharSet → CharSet
  | start, gap :: more :: t, acc => ranges (start + gap + more + 1) t ((start + gap, start + gap + more) :: acc)
  | _, _, acc => acc.reverse

def readRanges (s : String) : CharSet := ranges 0 (numbers s.toList none []) []

def pairs : Nat → List Nat → List (Nat × Nat) → List (Nat × Nat)
  | start, gap :: target :: t, acc => pairs (start + gap + 1) t ((start + gap, target) :: acc)
  | _, _, acc => acc.reverse

def category? : String → Option CharSet
  | "Lu" => some (readRanges Table.lu)
  | "Ll" => some (readRanges Table.ll)
  | "Lt" => some (readRanges Table.lt)
  | "Lm" => some (readRanges Table.lm)
  | "Lo" => some (readRanges Table.lo)
  | "Mn" => some (readRanges Table.mn)
  | "Mc" => some (readRanges Table.mc)
  | "Me" => some (readRanges Table.me)
  | "Nd" => some (readRanges Table.nd)
  | "Nl" => some (readRanges Table.nl)
  | "No" => some (readRanges Table.no)
  | "Pc" => some (readRanges Table.pc)
  | "Pd" => some (readRanges Table.pd)
  | "Ps" => some (readRanges Table.ps)
  | "Pe" => some (readRanges Table.pe)
  | "Pi" => some (readRanges Table.pi)
  | "Pf" => some (readRanges Table.pf)
  | "Po" => some (readRanges Table.po)
  | "Sm" => some (readRanges Table.sm)
  | "Sc" => some (readRanges Table.sc)
  | "Sk" => some (readRanges Table.sk)
  | "So" => some (readRanges Table.so)
  | "Zs" => some (readRanges Table.zs)
  | "Zl" => some (readRanges Table.zl)
  | "Zp" => some (readRanges Table.zp)
  | "Cc" => some (readRanges Table.cc)
  | "Cf" => some (readRanges Table.cf)
  | "Co" => some (readRanges Table.co)
  | _ => none

def categoryNames : List String :=
  ["Lu", "Ll", "Lt", "Lm", "Lo", "Mn", "Mc", "Me", "Nd", "Nl", "No", "Pc", "Pd", "Ps", "Pe", "Pi",
    "Pf", "Po", "Sm", "Sc", "Sk", "So", "Zs", "Zl", "Zp", "Cc", "Cf", "Co"]

def categories (names : List String) : CharSet :=
  CharSet.ofRanges (names.flatMap fun n => (category? n).getD [])

def assigned : CharSet := categories categoryNames

def unassigned : CharSet := CharSet.complement assigned

def graphemeExtend : CharSet := readRanges Table.graphemeExtend

def whiteSpace : CharSet := readRanges Table.whiteSpace

def alphabetic : CharSet := readRanges Table.alphabetic

def decimalDigit : CharSet := readRanges Table.nd

def word : CharSet :=
  CharSet.ofRanges (alphabetic ++ categories ["Mn", "Mc", "Me", "Nd", "Pc"] ++
    readRanges Table.joinControl)

def printable : CharSet :=
  CharSet.union [(32, 32)]
    (CharSet.diff assigned (categories ["Cc", "Cf", "Co", "Zl", "Zp", "Zs"]))

def foldings : List (Nat × Nat) := pairs 0 (numbers Table.folding.toList none []) []

end LogTail.Unicode
