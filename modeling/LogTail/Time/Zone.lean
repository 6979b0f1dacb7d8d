import LogTail.Time.Parse

namespace LogTail.Time

inductive Zone
  | universal
  | «local»
  | fixed (seconds : Int)
  deriving DecidableEq, Repr

namespace Zone

def ofOffset? (s : String) : Option Zone :=
  match Taken.offset s.toList with
  | .ok (n, _) => if n.natAbs < 86400 then some (.fixed n) else none
  | .error _ => none

def ofText? (s : String) : Option Zone :=
  if ["", "UTC", "utc", "Etc/UTC"].contains s then some .universal
  else if ["Local", "local"].contains s then some .local
  else ofOffset? s

def toUniversal (t : DateTime) : Zone → Option DateTime
  | .universal => some t
  | .local => some t
  | .fixed n => t.minusSeconds n

end Zone

inductive Misreading
  | mismatch (text layout : String) (f : Fault)
  | fields (f : Fault)
  | outside (text : String)
  deriving DecidableEq, Repr

def Misreading.message : Misreading → String
  | .mismatch text layout f => "'" ++ text ++ "' does not match layout '" ++ layout ++ "': " ++ f.message
  | .fields f => f.message
  | .outside text => "'" ++ text ++ "' does not exist in the configured location"

namespace DateTime

def ofFields (f : Fields) : Except Fault DateTime := do
  let f := f.fillClock
  let d ← f.date
  let c ← f.clock
  return ⟨d, c⟩

def ofText (layout : String) (z : Zone) (s : String) : Except Misreading DateTime :=
  match Fields.ofText (Layout.ofText layout) s with
  | .error f => .error (.mismatch s layout f)
  | .ok fields =>
    match ofFields fields with
    | .error f => .error (.fields f)
    | .ok t =>
      match z.toUniversal t with
      | some t => .ok t
      | none => .error (.outside s)

end DateTime

end LogTail.Time
