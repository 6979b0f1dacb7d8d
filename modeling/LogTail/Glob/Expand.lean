import LogTail.FileTree.Basic
import LogTail.Glob.Pattern
import LogTail.Sort

namespace LogTail.Glob

structure Spot where
  path : Path
  isDir : Bool

namespace Spot

def ofPath (t : FileTree) (p : Path) : Spot := ⟨p, t.isDirectory p⟩

def present (t : FileTree) (p : Path) : Bool :=
  match t.resolve false p with
  | .ok (.vacant _ _) => false
  | .ok _ => true
  | .error _ => false

/-- A path that starts at the working directory does not mention it. -/
def step (s : Spot) (name : String) : Path :=
  if s.path.same ⟨"."⟩ then ⟨name⟩ else s.path.join ⟨name⟩

def children (t : FileTree) (s : Spot) : List Spot :=
  match t.locate s.path with
  | .error _ => []
  | .ok dir => (Sort.sort (fun a b => a ≤ b) (t.names dir)).map fun name => ofPath t (s.step name)

end Spot

/-- The dots that a component with wildcards matches: only one that begins with a dot does. -/
def dots (p : Pattern) : List String :=
  if p.head? = some (.char '.') then [".", ".."].filter p.accepts else []

def afterRecursive : List Pattern → List Pattern
  | [] => []
  | p :: ps => if p.isRecursive then afterRecursive ps else p :: ps

variable (t : FileTree) (mustBeDir : Bool)

def result (s : Spot) : List Path := if mustBeDir && !s.isDir then [] else [s.path]

mutual

def below : Nat → List Pattern → Spot → List Path
  | 0, _, _ => []
  | _ + 1, [], _ => []
  | fuel + 1, p :: ps, s =>
    match p.literal? with
    | some name =>
      let name := String.ofList name
      let next := Spot.ofPath t (s.step name)
      let isDots := name = "." || name = ".."
      if (isDots && s.isDir) || (!isDots && Spot.present t next.path) then reached fuel ps next else []
    | none =>
      if s.isDir then
        (dots p).flatMap (fun name => reached fuel ps (Spot.ofPath t (s.path.join ⟨name⟩))) ++
          (s.children t).flatMap (fun c => atSpot fuel (p :: ps) c)
      else []

def reached : Nat → List Pattern → Spot → List Path
  | 0, _, _ => []
  | _ + 1, [], s => result mustBeDir s
  | fuel + 1, p :: ps, s => below fuel (p :: ps) s

def atSpot : Nat → List Pattern → Spot → List Path
  | 0, _, _ => []
  | _ + 1, [], _ => []
  | fuel + 1, p :: ps, s =>
    if p.isRecursive then
      match afterRecursive ps with
      | [] => if s.isDir then s.path :: below fuel [p] s else []
      | q :: qs =>
        named fuel q qs s ++ if s.isDir then below fuel (p :: q :: qs) s else []
    else named fuel p ps s

def named : Nat → Pattern → List Pattern → Spot → List Path
  | 0, _, _, _ => []
  | fuel + 1, p, ps, s =>
    match s.path.fileName? with
    | none => []
    | some name =>
      if p.accepts name then
        match ps with
        | [] => result mustBeDir s
        | q :: qs => below fuel (q :: qs) s
      else []

end

/-- The pieces of a text between slashes; a slash at the end has nothing behind it. -/
def pieces (cs : List Char) : List (List Char) :=
  let ps := Path.split cs
  if ps.getLast? = some [] then ps.dropLast else ps

def componentPatterns (text : String) : Except Fault (List Pattern) :=
  let cs := text.toList
  let rest := if cs.head? = some '/' then cs.drop 1 else cs
  if rest.isEmpty then .ok [[]] else (pieces rest).mapM Pattern.ofChars

/-- All paths that a pattern matches, possibly some of them twice. Every path is shorter than the
longest that can be looked up, and each of its components takes at most four steps. -/
def expand (text : String) : Except Fault (List Path) := do
  let _ ← Pattern.ofText text
  let ps ← componentPatterns text
  let start : Path := if text.toList.head? = some '/' then ⟨"/"⟩ else ⟨"."⟩
  let mustBeDir := text.toList.getLast? = some '/'
  return below t mustBeDir (4 * (FileTree.pathLimit + ps.length)) ps (Spot.ofPath t start)

end LogTail.Glob
