import LetArith.Diagnostic

/-! A place in a list of tokens.  The place never moves back, and never past the first token
that closes the input; a list whose last token does not close it is closed where that token
ends. -/

namespace LetArith

/-- The tokens already passed, the last one first; those still to come before the end; the
token that closes the input; and the tokens beyond it, which are never reached. -/
structure Cursor where
  behind : List Token
  ahead : List Token
  stop : Token
  beyond : List Token
  behind_open : ∀ t ∈ behind, t.isEnd = false
  ahead_open : ∀ t ∈ ahead, t.isEnd = false
  stop_isEnd : stop.isEnd = true
  deriving DecidableEq

namespace Cursor

/-- The token that closes a list which lacks one: it stands where the last token ends. -/
def closing (ts : List Token) : Token :=
  Token.endAt ((ts.getLast?.map (fun t => t.span.stop)).getD Position.null)

/-- What closes a list: nothing if its last token does. -/
def closure (ts : List Token) : List Token :=
  if ts.getLast?.any Token.isEnd then [] else [closing ts]

theorem isEnd_of_mem_takeWhile {ts : List Token} {t : Token}
    (h : t ∈ ts.takeWhile (fun t => !t.isEnd)) : t.isEnd = false := by
  simpa using List.all_eq_true.1 (List.all_takeWhile) t h

theorem isEnd_of_dropWhile {ts rest : List Token} {t : Token}
    (h : ts.dropWhile (fun t => !t.isEnd) = t :: rest) : t.isEnd = true := by
  have := List.head?_dropWhile_not (fun t : Token => !t.isEnd) ts
  simpa [h] using this

def ofTokens (ts : List Token) : Cursor :=
  match h : ts.dropWhile (fun t => !t.isEnd) with
  | stop :: beyond =>
    { behind := []
      ahead := ts.takeWhile (fun t => !t.isEnd)
      stop := stop
      beyond := beyond ++ closure ts
      behind_open := by simp
      ahead_open := fun _ => isEnd_of_mem_takeWhile
      stop_isEnd := isEnd_of_dropWhile h }
  | [] =>
    { behind := []
      ahead := ts.takeWhile (fun t => !t.isEnd)
      stop := closing ts
      beyond := []
      behind_open := by simp
      ahead_open := fun _ => isEnd_of_mem_takeWhile
      stop_isEnd := rfl }

def tokens (c : Cursor) : List Token := c.behind.reverse ++ c.ahead ++ c.stop :: c.beyond

@[simp] theorem behind_ofTokens (ts : List Token) : (ofTokens ts).behind = [] := by
  unfold ofTokens
  split <;> rfl

@[simp] theorem ahead_ofTokens (ts : List Token) :
    (ofTokens ts).ahead = ts.takeWhile (fun t => !t.isEnd) := by
  unfold ofTokens
  split <;> rfl

theorem tokens_ofTokens (ts : List Token) : (ofTokens ts).tokens = ts ++ closure ts := by
  have parts : ts.takeWhile (fun t => !t.isEnd) ++ ts.dropWhile (fun t => !t.isEnd) = ts :=
    List.takeWhile_append_dropWhile
  unfold ofTokens
  split
  · next stop beyond h =>
    rw [h] at parts
    show ts.takeWhile (fun t => !t.isEnd) ++ stop :: (beyond ++ closure ts) = _
    rw [← List.cons_append, ← List.append_assoc, parts]
  · next h =>
    have whole : ts.takeWhile (fun t => !t.isEnd) = ts := by simpa [h] using parts
    have last : ts.getLast?.any Token.isEnd = false := by
      cases hl : ts.getLast? with
      | none => rfl
      | some t =>
        have mem : t ∈ ts := List.mem_of_getLast? hl
        rw [← whole] at mem
        simp [isEnd_of_mem_takeWhile mem]
    simp [tokens, whole, closure, last]

def peek (c : Cursor) : Token := c.ahead.headD c.stop

def atEnd (c : Cursor) : Bool := c.peek.isEnd

theorem atEnd_iff (c : Cursor) : c.atEnd = true ↔ c.ahead = [] := by
  cases h : c.ahead with
  | nil => simp [atEnd, peek, h, c.stop_isEnd]
  | cons t ts => simp [atEnd, peek, h, c.ahead_open t (by simp [h])]

def position (c : Cursor) : Nat := c.behind.length

def remaining (c : Cursor) : Nat := c.ahead.length

/-- The place after the token at this one.  At the end there is none. -/
def next (c : Cursor) : Cursor :=
  match h : c.ahead with
  | [] => c
  | t :: ts =>
    { c with
      behind := t :: c.behind
      ahead := ts
      behind_open := by
        intro u hu
        rcases List.mem_cons.1 hu with rfl | hu
        · exact c.ahead_open u (by simp [h])
        · exact c.behind_open u hu
      ahead_open := fun u hu => c.ahead_open u (by simp [h, hu]) }

theorem next_of_nil {c : Cursor} (h : c.ahead = []) : c.next = c := by
  unfold next
  split
  · rfl
  · simp_all

theorem ahead_next (c : Cursor) : c.next.ahead = c.ahead.tail := by
  unfold next
  split <;> simp_all

@[simp] theorem stop_next (c : Cursor) : c.next.stop = c.stop := by
  unfold next
  split <;> rfl

@[simp] theorem beyond_next (c : Cursor) : c.next.beyond = c.beyond := by
  unfold next
  split <;> rfl

theorem behind_next {c : Cursor} {t : Token} {ts : List Token} (h : c.ahead = t :: ts) :
    c.next.behind = t :: c.behind := by
  unfold next
  split <;> simp_all

@[simp] theorem tokens_next (c : Cursor) : c.next.tokens = c.tokens := by
  cases h : c.ahead with
  | nil => rw [next_of_nil h]
  | cons t ts => simp [tokens, behind_next h, ahead_next, h]

theorem position_add_remaining_next (c : Cursor) :
    c.next.position + c.next.remaining = c.position + c.remaining := by
  cases h : c.ahead with
  | nil => rw [next_of_nil h]
  | cons t ts => simp [position, remaining, behind_next h, ahead_next, h]; omega

/-- The token at the place and the place after it, if the token has this kind. -/
def expect (c : Cursor) (kind : Kind) (complaint : Complaint) :
    Except Diagnostic (Token × Cursor) :=
  if c.peek.kind = kind then .ok (c.peek, c.next) else .error (.unexpected c.peek complaint)

end Cursor

end LetArith
