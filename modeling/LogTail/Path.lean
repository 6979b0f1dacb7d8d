namespace LogTail

structure Path where
  text : String
  deriving DecidableEq, Repr, Inhabited

namespace Path

inductive Component
  | root | here | up
  | name (s : String)
  deriving DecidableEq, Repr

def split : List Char → List (List Char)
  | [] => [[]]
  | c :: cs =>
    if c = '/' then [] :: split cs
    else
      match split cs with
      | [] => [[c]]
      | p :: ps => (c :: p) :: ps

def parts (p : Path) : List String :=
  ((split p.text.toList).filter fun s => !s.isEmpty).map String.ofList

def isAbsolute (p : Path) : Bool := p.text.toList.head? = some '/'

def endsWithSlash (p : Path) : Bool := p.text.toList.getLast? = some '/'

def component? (s : String) : Option Component :=
  if s = "." then none else if s = ".." then some .up else some (.name s)

def components (p : Path) : List Component :=
  let named := p.parts.filterMap component?
  if p.isAbsolute then .root :: named
  else if (split p.text.toList).head? = some ['.'] then .here :: named
  else named

def same (p q : Path) : Bool := p.components = q.components

namespace Component

def rank : Component → Nat
  | .root => 0
  | .here => 1
  | .up => 2
  | .name _ => 3

/-- The root, then the dots, then names in the order of their characters. -/
def compare : Component → Component → Ordering
  | .name s, .name t => Ord.compare s t
  | a, b => Ord.compare a.rank b.rank

def text : Component → String
  | .root => "/"
  | .here => "."
  | .up => ".."
  | .name s => s

end Component

def compareLists : List Component → List Component → Ordering
  | [], [] => .eq
  | [], _ :: _ => .lt
  | _ :: _, [] => .gt
  | a :: as, b :: bs => (a.compare b).then (compareLists as bs)

def compare (p q : Path) : Ordering := compareLists p.components q.components

def le (p q : Path) : Bool := compare p q ≠ .gt

def ofComponents : List Component → Path
  | .root :: cs => ⟨"/" ++ String.intercalate "/" (cs.map Component.text)⟩
  | cs => ⟨String.intercalate "/" (cs.map Component.text)⟩

def fileName? (p : Path) : Option String :=
  match p.components.getLast? with
  | some (.name s) => some s
  | _ => none

def parent? (p : Path) : Option Path :=
  match p.components.getLast? with
  | none => none
  | some .root => none
  | some _ => some (ofComponents p.components.dropLast)

/-- A name up to its last dot, unless that is the first character or there is none. -/
def stem (name : String) : String :=
  let behind := name.toList.reverse.dropWhile (· ≠ '.')
  match behind with
  | _ :: c :: t => if name = ".." then name else String.ofList (c :: t).reverse
  | _ => name

def withExtension (p : Path) (ext : String) : Path :=
  match p.fileName? with
  | none => p
  | some name => ofComponents (p.components.dropLast ++ [.name (stem name ++ "." ++ ext)])

def join (p q : Path) : Path :=
  if q.isAbsolute || p.text.isEmpty then q
  else if p.endsWithSlash then ⟨p.text ++ q.text⟩
  else ⟨p.text ++ "/" ++ q.text⟩

end Path

end LogTail
