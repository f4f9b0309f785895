import LetArith.Grammar.Parser
import LetArith.Proofs.Grammar.Recognition

/-! The states of a parser one can stop and go on with: where a success leaves it and where a
failure does, and what entering a group and leaving it make of them. -/

namespace LetArith

namespace Parser

variable {α β : Type} {p q : Parser} {c : Cursor}

def moved (p : Parser) (c : Cursor) : Parser := { p with cursor := c }

@[simp] theorem cursor_moved (p : Parser) (c : Cursor) : (p.moved c).cursor = c := rfl
@[simp] theorem rules_moved (p : Parser) (c : Cursor) : (p.moved c).rules = p.rules := rfl
@[simp] theorem room_moved (p : Parser) (c : Cursor) : (p.moved c).room = p.room := rfl
@[simp] theorem moved_moved (p : Parser) (c d : Cursor) : (p.moved c).moved d = p.moved d := rfl

section Run

variable {parse : Rules → Nat → Parse α} {next : α → Rules → Nat → Parse β}

theorem run_of_ok {a : α} (h : parse p.rules p.room p.cursor = .ok (a, c)) :
    p.run parse = (.ok a, p.moved c) := by
  rw [run, h]
  rfl

theorem run_of_error {f : Failure} (h : parse p.rules p.room p.cursor = .error f) :
    p.run parse =
      (.error f.diagnostic, { p with cursor := f.cursor, depth := p.depth + f.opened }) := by
  rw [run, h]

theorem exists_of_run_ok {a : α} (h : p.run parse = (.ok a, q)) :
    ∃ c, parse p.rules p.room p.cursor = .ok (a, c) ∧ q = p.moved c := by
  cases hp : parse p.rules p.room p.cursor with
  | ok r =>
    rw [run_of_ok hp] at h
    cases h
    exact ⟨_, rfl, rfl⟩
  | error f =>
    rw [run_of_error hp] at h
    cases h

theorem exists_of_run_error {d : Diagnostic} (h : p.run parse = (.error d, q)) :
    ∃ f, parse p.rules p.room p.cursor = .error f ∧ d = f.diagnostic ∧
      q = { p with cursor := f.cursor, depth := p.depth + f.opened } := by
  cases hp : parse p.rules p.room p.cursor with
  | ok r =>
    rw [run_of_ok hp] at h
    cases h
  | error f =>
    rw [run_of_error hp] at h
    cases h
    exact ⟨f, rfl, rfl, rfl⟩

theorem run_congr {parse' : Rules → Nat → Parse α}
    (h : parse p.rules p.room p.cursor = parse' p.rules p.room p.cursor) :
    p.run parse = p.run parse' := by rw [run, run, h]

/-- What comes after a success runs where that leads. -/
theorem run_bind_of_ok {a : α} (h : p.run parse = (.ok a, q)) :
    p.run (fun rules room => parse rules room >>= fun a => next a rules room) = q.run (next a) := by
  obtain ⟨c, hp, rfl⟩ := exists_of_run_ok h
  rw [run, run, Parse.bind_of_ok hp]
  rfl

theorem run_bind_of_error {d : Diagnostic} (h : p.run parse = (.error d, q)) :
    p.run (fun rules room => parse rules room >>= fun a => next a rules room) = (.error d, q) := by
  obtain ⟨f, hp, rfl, rfl⟩ := exists_of_run_error h
  exact run_of_error (Parse.bind_of_error hp)

end Run

section Group

variable {d : Diagnostic}

theorem room_of_refused {t : Token} (h : p.enterGroup t = (.error d, q)) :
    p.room = 0 ∧ d = .unexpected t .nestedTooDeeply ∧ q = { p with depth := p.depth + 1 } := by
  unfold enterGroup at h
  dsimp only at h
  split at h
  · next hlt =>
    cases h
    exact ⟨Nat.sub_eq_zero_of_le (Nat.le_of_lt_succ hlt), rfl, rfl⟩
  · cases h

theorem room_of_entered {t : Token} (h : p.enterGroup t = (.ok (), q)) :
    p.room = q.room + 1 ∧ q = { p with depth := p.depth + 1 } := by
  unfold enterGroup at h
  dsimp only at h
  split at h
  · cases h
  · next hle =>
    cases h
    refine ⟨?_, rfl⟩
    unfold room
    dsimp only
    omega

theorem primary_of_group {rules : Rules} {room : Nat}
    (rule : rules.operand? c.peek.kind = some .group) :
    Expr.primary rules room c = Expr.readGroup rules room c := by
  rw [Expr.primary_eq, Expr.operand_apply, rule]

theorem run_group_of_refused
    (entered : (p.moved p.cursor.next).enterGroup p.cursor.peek = (.error d, q)) :
    p.run Expr.readGroup = (.error d, q) := by
  obtain ⟨hroom, rfl, rfl⟩ := room_of_refused entered
  have hroom' : p.room = 0 := hroom
  have hrefused : Expr.readGroup p.rules p.room p.cursor =
      .error ⟨.unexpected p.cursor.peek .nestedTooDeeply, p.cursor.next, 1⟩ := by
    rw [hroom']
    rfl
  exact run_of_error hrefused

/-- The parser of what is in a group and of the token that closes it. -/
def inside (rules : Rules) (room : Nat) : Parse Expr :=
  Expr.read rules room >>= fun e => Parse.expect .closeParen .groupNotClosed >>= fun _ => pure e

/-- The inside of a group is run in the state in which the group has been entered. -/
theorem run_group_of_entered
    (entered : (p.moved p.cursor.next).enterGroup p.cursor.peek = (.ok (), q)) :
    p.run Expr.readGroup =
      match q.run inside with
      | (.ok e, s) => (.ok e, s.exitGroup)
      | (.error d, s) => (.error d, s) := by
  obtain ⟨hroom, rfl⟩ := room_of_entered entered
  replace hroom : p.room = room { p.moved p.cursor.next with depth := p.depth + 1 } + 1 := hroom
  have hgroup : Expr.readGroup p.rules p.room p.cursor =
      (inside p.rules (room { p.moved p.cursor.next with depth := p.depth + 1 })).inGroup
        p.cursor.next := by
    rw [hroom]
    exact Expr.groupOf_apply _ _
  unfold Parse.inGroup at hgroup
  cases hin : inside p.rules (room { p.moved p.cursor.next with depth := p.depth + 1 })
      p.cursor.next with
  | ok r =>
    obtain ⟨e, c⟩ := r
    rw [hin] at hgroup
    rw [run_of_ok hgroup, run_of_ok hin]
    rfl
  | error f =>
    rw [hin] at hgroup
    rw [run_of_error hgroup, run_of_error hin]
    -- the group counts among those that the failure happened in
    simp [moved, Nat.add_comm, Nat.add_left_comm]

/-- An operand whose first token opens a group is that group. -/
theorem run_primary_of_group (rule : p.rules.operand? p.cursor.peek.kind = some .group) :
    p.run Expr.primary = p.run Expr.readGroup := run_congr (primary_of_group rule)

theorem run_inside_of_error {d : Diagnostic} {s : Parser} (hin : p.run Expr.read = (.error d, s)) :
    p.run inside = (.error d, s) := by
  unfold inside
  exact run_bind_of_error hin

theorem run_inside_of_closed {e : Expr} {s : Parser} {t : Token}
    (hin : p.run Expr.read = (.ok e, s))
    (closed : s.cursor.expect .closeParen .groupNotClosed = .ok (t, c)) :
    p.run inside = (.ok e, s.moved c) := by
  unfold inside
  rw [run_bind_of_ok hin]
  exact run_of_ok (Parse.bind_of_ok (by rw [Parse.expect, closed]))

theorem run_inside_of_unclosed {e : Expr} {s : Parser} {d : Diagnostic}
    (hin : p.run Expr.read = (.ok e, s))
    (unclosed : s.cursor.expect .closeParen .groupNotClosed = .error d) :
    p.run inside = (.error d, s) := by
  unfold inside
  rw [run_bind_of_ok hin]
  exact run_of_error (f := ⟨d, s.cursor, 0⟩) (Parse.bind_of_error (by rw [Parse.expect, unclosed]))

end Group

end Parser

end LetArith
