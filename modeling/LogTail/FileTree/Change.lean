import LogTail.FileTree.Basic

namespace LogTail.FileTree

def setNode (t : FileTree) (n : Nat) (node : Node) : FileTree :=
  { t with nodes := t.nodes.set n node }

def add (t : FileTree) (dir : Nat) (name : String) (node : Node) : FileTree :=
  ⟨t.nodes ++ [node], t.entries ++ [⟨dir, name, t.nodes.length, true⟩]⟩

def kill (t : FileTree) (i : Nat) : FileTree :=
  { t with entries := t.entries.modify i fun e => { e with live := false } }

def write (t : FileTree) (p : Path) (bs : Bytes) : Except Errno FileTree :=
  match t.resolve true p with
  | .ok (.directory _) => .error .isDirectory
  | .ok (.entry _ e) =>
    if t.isDirectoryNode e.node then .error .isDirectory else .ok (t.setNode e.node (.file bs))
  | .ok (.vacant dir name) =>
    if p.endsWithSlash then .error .isDirectory else .ok (t.add dir name (.file bs))
  | .error f => .error f

def append (t : FileTree) (p : Path) (bs : Bytes) : Except Errno FileTree :=
  match t.locate p with
  | .ok n => t.write p (t.content n ++ bs)
  | .error _ => t.write p bs

def truncate (t : FileTree) (p : Path) (len : Nat) : Except Errno FileTree := do
  let n ← t.locate p
  if t.isDirectoryNode n then .error .isDirectory
  else
    let bs := t.content n
    return t.setNode n (.file (bs.take len ++ List.replicate (len - bs.length) 0))

def makeDirectory (t : FileTree) (p : Path) : Except Errno FileTree :=
  match t.resolve false p with
  | .ok (.vacant dir name) => .ok (t.add dir name .directory)
  | .ok _ => .error .exists
  | .error f => .error f

/-- Makes the directories of a list of paths, each the parent of the one before, from the first that
can be made. -/
def makeAll : List Path → FileTree → Option Errno × FileTree
  | [], t => (some .noTree, t)
  | p :: ps, t =>
    if p.text.isEmpty then (none, t)
    else
      match t.makeDirectory p with
      | .ok t => (none, t)
      | .error .noEntry =>
        match makeAll ps t with
        | (some f, t) => (some f, t)
        | (none, t) =>
          match t.makeDirectory p with
          | .ok t => (none, t)
          | .error f => if t.isDirectory p then (none, t) else (some f, t)
      | .error f => if t.isDirectory p then (none, t) else (some f, t)

def ancestors : Nat → Path → List Path
  | 0, p => [p]
  | n + 1, p =>
    match p.parent? with
    | some q => p :: ancestors n q
    | none => [p]

def makeDirectories (t : FileTree) (p : Path) : Option Errno × FileTree :=
  makeAll (ancestors p.components.length p) t

def withParents (t : FileTree) (p : Path) (f : FileTree → Except Errno FileTree) :
    Option Errno × FileTree :=
  match (p.parent?).elim (none, t) t.makeDirectories with
  | (some e, t) => (some e, t)
  | (none, t) =>
    match f t with
    | .ok t => (none, t)
    | .error e => (some e, t)

def isBelow (t : FileTree) (dir : Nat) : Nat → Nat → Bool
  | 0, n => n = dir
  | fuel + 1, n =>
    n = dir || (n ≠ home && n ≠ above && n ≠ top && isBelow t dir fuel (t.parentOf n))

def moveEntry (t : FileTree) (i : Nat) (dir : Nat) (name : String) : FileTree :=
  { t with entries := t.entries.modify i fun e => { e with dir := dir, name := name } }

/-- Gives a node another name; a file or empty directory already there gives way. -/
def rename (t : FileTree) (p q : Path) : Except Errno FileTree :=
  match t.resolve false p with
  | .error f => .error f
  | .ok (.vacant _ _) => .error .noEntry
  | .ok (.directory _) => .error .busy
  | .ok (.entry i e) =>
    let isDir := t.isDirectoryNode e.node
    match t.resolve false q with
    | .error f => .error f
    | .ok (.directory _) => .error .busy
    | .ok (.vacant dir name) =>
      if !isDir && q.endsWithSlash then .error .notDirectory
      else if isDir && t.isBelow e.node t.entries.length dir then .error .invalid
      else .ok (t.moveEntry i dir name)
    | .ok (.entry j r) =>
      if r.node = e.node then .ok t
      else if isDir then
        if !t.isDirectoryNode r.node then .error .notDirectory
        else if t.isBelow e.node t.entries.length r.dir then .error .invalid
        else if !(t.names r.node).isEmpty then .error .notEmpty
        else .ok ((t.kill j).moveEntry i r.dir r.name)
      else if t.isDirectoryNode r.node then .error .isDirectory
      else .ok ((t.kill j).moveEntry i r.dir r.name)

def copy (t : FileTree) (p q : Path) : Except Errno FileTree := do
  t.write q (← t.contentAt p)

def hardLink (t : FileTree) (p q : Path) : Except Errno FileTree :=
  match t.resolve false p with
  | .error f => .error f
  | .ok (.vacant _ _) => .error .noEntry
  | .ok (.directory _) => .error .notPermitted
  | .ok (.entry _ e) =>
    match t.resolve false q with
    | .error f => .error f
    | .ok (.vacant dir name) =>
      if t.isDirectoryNode e.node then .error .notPermitted
      else .ok { t with entries := t.entries ++ [⟨dir, name, e.node, true⟩] }
    | .ok _ => .error .exists

def symbolicLink (t : FileTree) (target p : Path) : Except Errno FileTree :=
  if target.text.isEmpty then .error .noEntry
  else
    match t.resolve false p with
    | .error f => .error f
    | .ok (.vacant dir name) => .ok (t.add dir name (.link target))
    | .ok _ => .error .exists

def removeFile (t : FileTree) (p : Path) : Except Errno FileTree :=
  match t.resolve false p with
  | .error f => .error f
  | .ok (.vacant _ _) => .error .noEntry
  | .ok (.directory _) => .error .isDirectory
  | .ok (.entry i e) =>
    if t.isDirectoryNode e.node then .error .isDirectory else .ok (t.kill i)

def removeTree (t : FileTree) (p : Path) : Except Errno FileTree :=
  match t.resolve false p with
  | .error f => .error f
  | .ok (.vacant _ _) => .error .noEntry
  | .ok (.directory _) => .error .invalid
  | .ok (.entry i e) =>
    match t.node? e.node with
    | some .directory =>
      let gone (k : Nat) (d : Entry) : Entry :=
        if k = i || t.isBelow e.node t.entries.length d.dir then { d with live := false } else d
      .ok { t with entries := t.entries.mapIdx gone }
    | some (.link _) => .ok (t.kill i)
    | _ => .error .notDirectory

def listing (t : FileTree) : Nat → Nat → String → List String
  | 0, _, _ => []
  | fuel + 1, dir, start =>
    (t.entries.filter fun e => e.live && e.dir = dir).flatMap fun e =>
      let path := start ++ e.name
      if t.isDirectoryNode e.node then (path ++ "/") :: listing t fuel e.node (path ++ "/")
      else [path]

def allPaths (t : FileTree) : List String :=
  (listing t (t.entries.length + 1) home "").mergeSort fun a b => a ≤ b

end LogTail.FileTree
