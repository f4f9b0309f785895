import LetArith.Cursor

/-! Looking ahead.  A copy of the place can be made and moved; dropping it leads back to the
place it was made at. -/

namespace LetArith

/-- The place that moves, and the places to go back to, the latest first. -/
structure Lookahead where
  current : Cursor
  kept : List Cursor
  deriving DecidableEq

namespace Lookahead

inductive Step where
  | peek
  | advance
  | atEnd
  | position
  | remaining
  | expect (kind : Kind) (complaint : Complaint)
  | copy
  | drop
  deriving DecidableEq

/-- What a step tells. -/
inductive Reply where
  | token (t : Token)
  | flag (b : Bool)
  | count (n : Nat)
  | refusal (d : Diagnostic)
  | nothing
  deriving DecidableEq

def ofTokens (ts : List Token) : Lookahead := ⟨Cursor.ofTokens ts, []⟩

def moveTo (l : Lookahead) (c : Cursor) : Lookahead := { l with current := c }

def step (l : Lookahead) : Step → Reply × Lookahead
  | .peek => (.token l.current.peek, l)
  | .advance => (.token l.current.peek, l.moveTo l.current.next)
  | .atEnd => (.flag l.current.atEnd, l)
  | .position => (.count l.current.position, l)
  | .remaining => (.count l.current.remaining, l)
  | .expect kind complaint =>
    match l.current.expect kind complaint with
    | .ok (t, c) => (.token t, l.moveTo c)
    | .error d => (.refusal d, l)
  | .copy => (.nothing, ⟨l.current, l.current :: l.kept⟩)
  | .drop =>
    match l.kept with
    | [] => (.nothing, l)
    | c :: kept => (.nothing, ⟨c, kept⟩)

def run (l : Lookahead) (steps : List Step) : Lookahead :=
  steps.foldl (fun l s => (l.step s).2) l

@[simp] theorem run_nil (l : Lookahead) : l.run [] = l := rfl
@[simp] theorem run_cons (l : Lookahead) (s : Step) (steps : List Step) :
    l.run (s :: steps) = (l.step s).2.run steps := rfl

end Lookahead

end LetArith
