import Offside.Machine.Register
import Offside.Scope.Basic

/-!
# `Lower.Journal` — what the compiler tells about its work

Every decision worth following is an `Event`: what was read, which registers were handed out, which scopes
and variables were made, what was spilled and reloaded, which functions were compiled and called. An event
has a level, a topic and a text; the journal of a compilation is the list of its events.
-/

namespace Offside

open Machine (Register RegisterClass)

/-- How much detail an event is. -/
inductive Level where
  | debug
  | trace
deriving DecidableEq

/-- The name of a level. -/
def Level.name : Level → String
  | .debug => "DEBUG"
  | .trace => "TRACE"

/-- What part of the work an event belongs to. -/
inductive Topic where
  | reading
  | registers
  | scopes
  | spilling
  | functions
  | calls
deriving DecidableEq

/-- A decision of the compiler. -/
inductive Event where
  | tokensRead (file : String) (count : Nat)
  | statementsRead (file : String) (count : Nat)
  | registerAllocated (r : Register) (c : RegisterClass)
  | registerTaken (r : Register)
  | registerFreed (r : Register)
  | scopeMade (s : ScopeId) (name : String)
  | variableDefined (name : String) (s : ScopeId) (slot : Nat)
  | scopeReleased (s : ScopeId) (count : Nat)
  | variableHoisted (name : String) (block parent : ScopeId)
  | spilled (name : String) (r : Register) (slot : Nat)
  | reloaded (name : String) (slot : Nat) (r : Register)
  | functionEntered (name : String) (slots : Nat) (bytes : Int)
  | parameterPlaced (name function : String) (r : Register)
  | functionLeft (name : String) (inUse : List Register)
  | functionCalled (name : String) (count : Nat)
deriving DecidableEq

namespace Event

/-- The level of an event. -/
def level : Event → Level
  | .tokensRead .. | .statementsRead .. | .spilled .. | .reloaded .. | .functionEntered ..
  | .functionCalled .. => .debug
  | .registerAllocated .. | .registerTaken .. | .registerFreed .. | .scopeMade .. | .variableDefined ..
  | .scopeReleased .. | .variableHoisted .. | .parameterPlaced .. | .functionLeft .. => .trace

/-- The topic of an event. -/
def topic : Event → Topic
  | .tokensRead .. | .statementsRead .. => .reading
  | .registerAllocated .. | .registerTaken .. | .registerFreed .. => .registers
  | .scopeMade .. | .variableDefined .. | .scopeReleased .. | .variableHoisted .. => .scopes
  | .spilled .. | .reloaded .. => .spilling
  | .functionEntered .. | .parameterPlaced .. | .functionLeft .. => .functions
  | .functionCalled .. => .calls

/-- The registers of a list by name, with a capital. -/
def registerList (rs : List Register) : String :=
  "[" ++ String.intercalate ", " (rs.map fun r => r.name.capitalize) ++ "]"

/-- The text of an event. -/
def text : Event → String
  | .tokensRead file count => file ++ ": " ++ toString count ++ " tokens"
  | .statementsRead file count => file ++ ": " ++ toString count ++ " top-level statements"
  | .registerAllocated r c => "pool: allocated " ++ r.name ++ " (" ++ c.name ++ ")"
  | .registerTaken r => "pool: took " ++ r.name
  | .registerFreed r => "pool: freed " ++ r.name
  | .scopeMade s name => "scope: created " ++ toString s ++ " (" ++ name ++ ")"
  | .variableDefined name s slot =>
      "scope: defined '" ++ name ++ "' in " ++ toString s ++ " (slot " ++ toString slot ++ ")"
  | .scopeReleased s count =>
      "scope: released " ++ toString count ++ " register(s) of scope " ++ toString s
  | .variableHoisted name block parent =>
      "scope: '" ++ name ++ "' outlives block " ++ toString block ++ " in " ++ toString parent
  | .spilled name r slot => "spill '" ++ name ++ "' from " ++ r.name ++ " to slot " ++ toString slot
  | .reloaded name slot r => "reload '" ++ name ++ "' from slot " ++ toString slot ++ " into " ++ r.name
  | .functionEntered name slots bytes =>
      "lowering function " ++ name ++ " (" ++ toString slots ++ " slot(s), " ++ toString bytes
        ++ " byte frame)"
  | .parameterPlaced name function r => "parameter " ++ name ++ " of " ++ function ++ " in " ++ r.name
  | .functionLeft name inUse => "registers in use after " ++ name ++ ": " ++ registerList inUse
  | .functionCalled name count => "call " ++ name ++ " with " ++ toString count ++ " argument(s)"

end Event

/-- The events that a level of detail shows: the finer level shows all of them. -/
def Level.shows : Level → Event → Bool
  | .debug, e => e.level == .debug
  | .trace, _ => true

end Offside
