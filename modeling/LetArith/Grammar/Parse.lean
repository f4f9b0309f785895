import LetArith.Cursor

/-! Parsers: functions from a place to a result and a later place, or to a failure that says
where it happened and how many groups it happened in. -/

namespace LetArith

/-- A diagnostic, the place where it arose, and how many groups had been entered and were
still open there. -/
structure Failure where
  diagnostic : Diagnostic
  cursor : Cursor
  opened : Nat

/-- A parser takes a place to a result and the place after it. -/
def Parse (α : Type) := Cursor → Except Failure (α × Cursor)

namespace Parse

def andThen {α β : Type} (p : Parse α) (q : α → Parse β) : Parse β := fun c =>
  match p c with
  | .ok (a, d) => q a d
  | .error f => .error f

instance : Monad Parse where
  pure a := fun c => .ok (a, c)
  bind := andThen

def place : Parse Cursor := fun c => .ok (c, c)

def advance : Parse Token := fun c => .ok (c.peek, c.next)

def fail {α : Type} (d : Diagnostic) : Parse α := fun c => .error ⟨d, c, 0⟩

def expect (kind : Kind) (complaint : Complaint) : Parse Token := fun c =>
  match c.expect kind complaint with
  | .ok r => .ok r
  | .error d => .error ⟨d, c, 0⟩

/-- A parser whose failures stand in one more open group. -/
def inGroup {α : Type} (p : Parse α) : Parse α := fun c =>
  match p c with
  | .ok r => .ok r
  | .error f => .error { f with opened := f.opened + 1 }

@[simp] theorem place_apply (c : Cursor) : place c = .ok (c, c) := rfl

@[simp] theorem advance_apply (c : Cursor) : advance c = .ok (c.peek, c.next) := rfl

theorem bind_of_ok {α β : Type} {p : Parse α} {q : α → Parse β} {c d : Cursor} {a : α}
    (h : p c = .ok (a, d)) : (p >>= q) c = q a d := by
  show andThen p q c = _
  simp [andThen, h]

theorem bind_of_error {α β : Type} {p : Parse α} {q : α → Parse β} {c : Cursor} {f : Failure}
    (h : p c = .error f) : (p >>= q) c = .error f := by
  show andThen p q c = _
  simp [andThen, h]

theorem bind_eq_ok_iff {α β : Type} {p : Parse α} {q : α → Parse β} {c e : Cursor} {b : β} :
    (p >>= q) c = .ok (b, e) ↔ ∃ a d, p c = .ok (a, d) ∧ q a d = .ok (b, e) := by
  cases h : p c with
  | ok r =>
    obtain ⟨a, d⟩ := r
    rw [bind_of_ok h]
    constructor
    · exact fun hq => ⟨a, d, rfl, hq⟩
    · rintro ⟨_, _, heq, hq⟩
      cases heq
      exact hq
  | error f => simp [bind_of_error h]

theorem expect_eq_ok_iff {kind : Kind} {complaint : Complaint} {c d : Cursor} {t : Token} :
    expect kind complaint c = .ok (t, d) ↔ c.peek.kind = kind ∧ t = c.peek ∧ d = c.next := by
  unfold expect Cursor.expect
  by_cases h : c.peek.kind = kind
  · simp [h, eq_comm]
  · simp [h]

theorem inGroup_eq_ok_iff {α : Type} {p : Parse α} {c : Cursor} {r : α × Cursor} :
    p.inGroup c = .ok r ↔ p c = .ok r := by
  unfold inGroup
  cases h : p c <;> simp

end Parse

end LetArith
