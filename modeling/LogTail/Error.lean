import LogTail.Config
import LogTail.Store.Basic

namespace LogTail

inductive Error
  | store (f : Store.Fault)
  | config (f : Config.Fault)
  | selection (f : Selector.Fault)
  | refused
  | alreadyStarted
  | trackerLost
  | taskFailed

namespace Error

inductive Kind
  | json | persistence | config | invalidGlob | regex | channelSend | alreadyStarted | trackerLost
  | taskFailed
  deriving DecidableEq, Repr

def kind : Error → Kind
  | .store (.json _) => .json
  | .store _ => .persistence
  | .config _ => .config
  | .selection (.ranking .invalidRegex) => .regex
  | .selection (.ranking _) => .config
  | .selection _ => .invalidGlob
  | .refused => .channelSend
  | .alreadyStarted => .alreadyStarted
  | .trackerLost => .trackerLost
  | .taskFailed => .taskFailed

def Kind.heading : Kind → String
  | .json => "JSON parsing error: "
  | .persistence => "Persistence error: "
  | .config => "Configuration error: "
  | .invalidGlob => "Invalid glob pattern: "
  | .regex => "Regex error: "
  | _ => ""

def globMessage (side pattern : String) (f : Glob.Fault) : String :=
  side ++ " '" ++ pattern ++ "': " ++ f.message

def cause? : Error → Option String
  | .store f => some f.message
  | .config f => some f.message
  | .selection (.invalidInclude p f) => some (globMessage "include" p f)
  | .selection (.invalidExclude p f) => some (globMessage "exclude" p f)
  | .selection (.invalidPattern f) => some f.message
  | .selection (.ranking f) => f.message?
  | .refused => some "Channel send error"
  | .alreadyStarted => some "File consumer already started"
  | .trackerLost => some "File consumer cannot restart after its poll task failed"
  | .taskFailed => none

def message? (e : Error) : Option String := e.cause?.map (e.kind.heading ++ ·)

def message (e : Error) : String := e.message?.getD ""

end Error

end LogTail
