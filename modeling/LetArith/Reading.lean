import LetArith.Grammar.Statement
import LetArith.Source.Tokens

/-! Programs from tokens and from source, together with an account of how they were read. -/

namespace LetArith

inductive Event where
  | scanned (tokens : Nat)
  | began (tokens : Nat) (matching : Matching)
  | declaring (first : Kind)
  | expressing (first : Kind)
  | finished (statements : Nat)
  deriving DecidableEq

/-- What was read, and the events on the way to it. -/
structure Reading where
  events : List Event
  result : Except Diagnostic Program

namespace Event

def ofStatement (rules : Rules) (first : Kind) : Event :=
  if rules.declares first then declaring first else expressing first

def ofEnd : Except Diagnostic Program → List Event
  | .ok p => [finished p.body.length]
  | .error _ => []

end Event

inductive Level where
  | trace
  | debug
  deriving DecidableEq

def Level.name : Level → String
  | trace => "TRACE"
  | debug => "DEBUG"

/-- What a line of a log says beside its message. -/
inductive Detail where
  | count (n : Nat)
  | name (s : String)
  deriving DecidableEq

structure Line where
  level : Level
  message : String
  details : List (String × Detail)
  deriving DecidableEq

def Event.line : Event → Line
  | scanned n => ⟨.trace, "tokenized source", [("count", .count n)]⟩
  | began n m => ⟨.debug, "parsing program", [("tokens", .count n), ("matching", .name m.name)]⟩
  | declaring k => ⟨.trace, "dispatching statement", [("kind", .name k.name)]⟩
  | expressing k => ⟨.trace, "parsing expression statement", [("kind", .name k.name)]⟩
  | finished n => ⟨.debug, "parsed program", [("statements", .count n)]⟩

namespace Reading

def log (r : Reading) : List Line := r.events.map Event.line

/-- Read all tokens before the first that closes the input. -/
def ofTokens (config : Config) (ts : List Token) : Reading :=
  let rules := Rules.standard config.matching
  let start := Cursor.ofTokens ts
  let read := Statement.readAll rules config.maxDepth start.remaining start
  let result := match read.2 with
    | .ok body => .ok ⟨body⟩
    | .error f => .error f.diagnostic
  { events := .began start.remaining config.matching ::
      read.1.map (Event.ofStatement rules) ++ Event.ofEnd result
    result := result }

def ofSource (config : Config) (source : String) : Reading :=
  match tokenize config.fileName source with
  | .error d => ⟨[], .error d⟩
  | .ok ts =>
    let reading := ofTokens config ts
    { reading with events := .scanned ts.length :: reading.events }

end Reading

namespace Program

def ofTokens (config : Config) (ts : List Token) : Except Diagnostic Program :=
  (Reading.ofTokens config ts).result

def ofSource (config : Config) (source : String) : Except Diagnostic Program :=
  (Reading.ofSource config source).result

/-- Whether two results agree: both failed in the same way, or both programs agree. -/
def resultsAgree : Except Diagnostic Program → Except Diagnostic Program → Bool
  | .ok p, .ok q => p.agrees q
  | .error d, .error e => d == e
  | _, _ => false

theorem ofSource_of_tokenize {config : Config} {source : String} {ts : List Token}
    (h : tokenize config.fileName source = .ok ts) :
    ofSource config source = ofTokens config ts := by
  simp [ofSource, Reading.ofSource, h, ofTokens]

end Program

end LetArith
