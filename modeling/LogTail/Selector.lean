import LogTail.Glob.Expand
import LogTail.Ranking.Basic

namespace LogTail

/-- The files to be followed are those that an include pattern matches and no exclude pattern. -/
structure Selector where
  includes : List String
  excludes : List Glob.Pattern
  ranking : Option Ranking

namespace Selector

inductive Fault
  | invalidInclude (pattern : String) (f : Glob.Fault)
  | invalidExclude (pattern : String) (f : Glob.Fault)
  | invalidPattern (f : Glob.Fault)
  | ranking (f : Ranking.Fault)
  deriving DecidableEq, Repr

def includePattern (s : String) : Except Fault String :=
  match Glob.Pattern.ofText s with
  | .ok _ => .ok s
  | .error f => .error (.invalidInclude s f)

def excludePattern (s : String) : Except Fault Glob.Pattern :=
  match Glob.Pattern.ofText s with
  | .ok p => .ok p
  | .error f => .error (.invalidExclude s f)

def rankingOf : Option Ranking.Criteria → Except Fault (Option Ranking)
  | none => .ok none
  | some c =>
    if c.isEmpty then .ok none
    else
      match Ranking.ofCriteria c with
      | .ok r => .ok (some r)
      | .error f => .error (.ranking f)

def ofPatterns (includes excludes : List String) (criteria : Option Ranking.Criteria) :
    Except Fault Selector := do
  let includes ← includes.mapM includePattern
  let excludes ← excludes.mapM excludePattern
  return ⟨includes, excludes, ← rankingOf criteria⟩

def isBarred (s : Selector) (p : Path) : Bool := s.excludes.any (·.accepts p.text)

def isWanted (t : FileTree) (s : Selector) (p : Path) : Bool := !t.isDirectory p && !s.isBarred p

/-- Of neighbours that are the same path the first stays; `p` is the last that stayed. -/
def squeezeFrom (p : Path) : List Path → List Path
  | [] => [p]
  | q :: qs => if p.same q then squeezeFrom p qs else p :: squeezeFrom q qs

def squeeze : List Path → List Path
  | [] => []
  | p :: ps => squeezeFrom p ps

def sorted (ps : List Path) : List Path := squeeze (Sort.sort Path.le ps)

def ranked (s : Selector) (ps : List Path) : List Path :=
  match s.ranking with
  | some r => r.rank ps
  | none => ps

def select (t : FileTree) (s : Selector) : Except Fault (List Path) :=
  match s.includes.mapM (Glob.expand t) with
  | .error e => .error (.invalidPattern e)
  | .ok found => .ok (s.ranked (sorted (found.flatten.filter (s.isWanted t))))

end Selector

end LogTail
