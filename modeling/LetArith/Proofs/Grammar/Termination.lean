import LetArith.Proofs.Grammar.Nesting
import LetArith.Proofs.Grammar.Running

/-! Parsers come to an end.  Their steps are told here with no bound on the operands of a chain, on
the groups inside each other or on the statements of a program: a parser goes on for as long as it
finds something to do.  From every state it comes to a result, which is that of the parser with its
bounds; and a success has passed a token, but none that closes the input. -/

namespace LetArith

namespace Parser

variable {p q : Parser}

/-- What there is to do with an expression: to read a chain of a tier, or an operand where the tier
is primary; or to go on behind the operands `left` of a chain. -/
inductive Task where
  | read (tier : Tier)
  | goOn (tier : Tier) (left : Expr)

namespace Task

def parseTier : Tier → Rules → Nat → Parse Expr
  | .additive => Expr.read
  | .multiplicative => fun rules room => Expr.multiplicative rules (Expr.primary rules room)
  | .primary => Expr.primary

def parse : Task → Rules → Nat → Parse Expr
  | read tier => parseTier tier
  | goOn tier left => fun rules room =>
    Expr.chainRest (rules.matching.operator? tier) (parseTier tier.tighter rules room) left

theorem advances_parseTier (tier : Tier) (rules : Rules) (room : Nat) :
    (parseTier tier rules room).Advances := by
  cases tier with
  | additive => exact Expr.advances_read rules room
  | multiplicative => exact Expr.advances_chain (Expr.advances_primary rules room)
  | primary => exact Expr.advances_primary rules room

theorem parse_read {tier : Tier} (h : tier ≠ .primary) :
    (read tier).parse = fun rules room =>
      (read tier.tighter).parse rules room >>= fun first => (goOn tier first).parse rules room := by
  cases tier with
  | additive => rfl
  | multiplicative => rfl
  | primary => exact absurd rfl h

end Task

/-- `Ends task p (r, q)`: the task, begun in the state `p`, comes to the result `r` in the state
`q`.  Nothing but the tokens and the rules limits how often a chain goes on or a group is
entered. -/
inductive Ends : Task → Parser → Except Diagnostic Expr × Parser → Prop where
  | chain {tier : Tier} {p q : Parser} {first : Expr} {r : Except Diagnostic Expr × Parser}
      (loose : tier ≠ .primary) (operand : Ends (.read tier.tighter) p (.ok first, q))
      (rest : Ends (.goOn tier first) q r) : Ends (.read tier) p r
  | chainFails {tier : Tier} {p q : Parser} {d : Diagnostic} (loose : tier ≠ .primary)
      (operand : Ends (.read tier.tighter) p (.error d, q)) : Ends (.read tier) p (.error d, q)
  | whole {tier : Tier} {left : Expr} {p : Parser} (ends : p.operator? tier = none) :
      Ends (.goOn tier left) p (.ok left, p)
  | more {tier : Tier} {left right : Expr} {op : Operator} {p q : Parser}
      {r : Except Diagnostic Expr × Parser} (operator : p.operator? tier = some op)
      (operand : Ends (.read tier.tighter) (p.moved p.cursor.next) (.ok right, q))
      (rest : Ends (.goOn tier (.binary left op right)) q r) : Ends (.goOn tier left) p r
  | moreFails {tier : Tier} {left : Expr} {op : Operator} {p q : Parser} {d : Diagnostic}
      (operator : p.operator? tier = some op)
      (operand : Ends (.read tier.tighter) (p.moved p.cursor.next) (.error d, q)) :
      Ends (.goOn tier left) p (.error d, q)
  | name {p : Parser} (rule : p.rules.operand? p.cursor.peek.kind = some .name) :
      Ends (.read .primary) p (p.run fun _ _ => Expr.readIdentifier)
  | number {p : Parser} (rule : p.rules.operand? p.cursor.peek.kind = some .number) :
      Ends (.read .primary) p (p.run fun _ _ => Expr.readNumber)
  | notAnOperand {p : Parser} (rule : p.rules.operand? p.cursor.peek.kind = none) :
      Ends (.read .primary) p (.error (.unexpected p.cursor.peek .notAnOperand), p)
  | refused {p q : Parser} {d : Diagnostic}
      (rule : p.rules.operand? p.cursor.peek.kind = some .group)
      (entered : (p.moved p.cursor.next).enterGroup p.cursor.peek = (.error d, q)) :
      Ends (.read .primary) p (.error d, q)
  | group {p q s : Parser} {e : Expr} {t : Token} {c : Cursor}
      (rule : p.rules.operand? p.cursor.peek.kind = some .group)
      (entered : (p.moved p.cursor.next).enterGroup p.cursor.peek = (.ok (), q))
      (inside : Ends (.read .additive) q (.ok e, s))
      (closed : s.cursor.expect .closeParen .groupNotClosed = .ok (t, c)) :
      Ends (.read .primary) p (.ok e, (s.moved c).exitGroup)
  | groupFails {p q s : Parser} {d : Diagnostic}
      (rule : p.rules.operand? p.cursor.peek.kind = some .group)
      (entered : (p.moved p.cursor.next).enterGroup p.cursor.peek = (.ok (), q))
      (inside : Ends (.read .additive) q (.error d, s)) : Ends (.read .primary) p (.error d, s)
  | notClosed {p q s : Parser} {e : Expr} {d : Diagnostic}
      (rule : p.rules.operand? p.cursor.peek.kind = some .group)
      (entered : (p.moved p.cursor.next).enterGroup p.cursor.peek = (.ok (), q))
      (inside : Ends (.read .additive) q (.ok e, s))
      (unclosed : s.cursor.expect .closeParen .groupNotClosed = .error d) :
      Ends (.read .primary) p (.error d, s)

section Task

variable {tier : Tier} {left : Expr}

theorem run_goOn_of_none (h : p.operator? tier = none) :
    p.run (Task.goOn tier left).parse = (.ok left, p) :=
  run_of_ok (Expr.chainRest_of_none h)

theorem run_goOn_of_some {op : Operator} (h : p.operator? tier = some op) :
    p.run (Task.goOn tier left).parse =
      (p.moved p.cursor.next).run (fun rules room => (Task.read tier.tighter).parse rules room >>=
        fun right => (Task.goOn tier (.binary left op right)).parse rules room) := by
  have hrest : (Task.goOn tier left).parse p.rules p.room p.cursor =
      ((Task.read tier.tighter).parse p.rules p.room >>= fun right =>
        (Task.goOn tier (.binary left op right)).parse p.rules p.room) p.cursor.next :=
    Expr.chainRest_of_some (Task.advances_parseTier tier.tighter p.rules p.room) h
  rw [run, hrest]
  rfl

theorem run_primary (p : Parser) :
    p.run Expr.primary =
      match p.rules.operand? p.cursor.peek.kind with
      | some .name => p.run fun _ _ => Expr.readIdentifier
      | some .number => p.run fun _ _ => Expr.readNumber
      | some .group => p.run fun rules room => Expr.readGroup rules room
      | none => (.error (.unexpected p.cursor.peek .notAnOperand), p) := by
  cases hrule : p.rules.operand? p.cursor.peek.kind with
  | none =>
    have hfails : Expr.primary p.rules p.room p.cursor =
        .error ⟨.unexpected p.cursor.peek .notAnOperand, p.cursor, 0⟩ := by
      rw [Expr.primary_eq, Expr.operand_apply, hrule]
    exact run_of_error hfails
  | some rule =>
    cases rule <;>
    · apply run_congr
      rw [Expr.primary_eq, Expr.operand_apply, hrule]

/-- There is no other end than that of the parser with its bounds. -/
theorem run_of_ends {task : Task} {r : Except Diagnostic Expr × Parser} (h : Ends task p r) :
    p.run task.parse = r := by
  induction h with
  | chain loose _ _ ihfirst ihrest => rw [Task.parse_read loose, run_bind_of_ok ihfirst, ihrest]
  | chainFails loose _ ihfirst => rw [Task.parse_read loose, run_bind_of_error ihfirst]
  | whole ends => exact run_goOn_of_none ends
  | more operator _ _ ihright ihrest =>
    rw [run_goOn_of_some operator, run_bind_of_ok ihright, ihrest]
  | moreFails operator _ ihright => rw [run_goOn_of_some operator, run_bind_of_error ihright]
  | @name p rule => exact (run_primary p).trans (by rw [rule])
  | @number p rule => exact (run_primary p).trans (by rw [rule])
  | @notAnOperand p rule => exact (run_primary p).trans (by rw [rule])
  | refused rule entered => exact (run_primary_of_group rule).trans (run_group_of_refused entered)
  | group rule entered _ closed ih =>
    have hinside := run_inside_of_closed ih closed
    exact (run_primary_of_group rule).trans ((run_group_of_entered entered).trans (by rw [hinside]))
  | groupFails rule entered _ ih =>
    have hinside := run_inside_of_error ih
    exact (run_primary_of_group rule).trans ((run_group_of_entered entered).trans (by rw [hinside]))
  | notClosed rule entered _ unclosed ih =>
    have hinside := run_inside_of_unclosed ih unclosed
    exact (run_primary_of_group rule).trans ((run_group_of_entered entered).trans (by rw [hinside]))

/-- The task comes to the end that the parser with its bounds comes to. -/
def Halts (p : Parser) (task : Task) : Prop := Ends task p (p.run task.parse)

/-- A chain comes to its end if its operands do: each of them passes a token. -/
theorem halts_goOn (hop : ∀ c, (p.moved c).Halts (.read tier.tighter)) (left : Expr) (c : Cursor) :
    (p.moved c).Halts (.goOn tier left) := by
  unfold Halts at hop ⊢
  induction hn : c.remaining using Nat.strongRecOn generalizing c left with
  | ind n ih =>
    cases ho : (p.moved c).operator? tier with
    | none =>
      rw [run_goOn_of_none ho]
      exact .whole ho
    | some op =>
      rw [run_goOn_of_some ho, cursor_moved, moved_moved]
      have hoperand := hop c.next
      cases hr : (p.moved c.next).run (Task.read tier.tighter).parse with
      | mk result q =>
        rw [hr] at hoperand
        cases result with
        | error d =>
          rw [run_bind_of_error hr]
          exact .moreFails ho hoperand
        | ok right =>
          obtain ⟨d, hd, rfl⟩ := exists_of_run_ok hr
          have hlt : d.remaining < c.next.remaining :=
            Parse.remaining_lt (Task.advances_parseTier _ _ _) hd
          have hle : c.next.remaining ≤ c.remaining := by
            simp [Cursor.remaining, Cursor.ahead_next]
          rw [run_bind_of_ok hr]
          exact .more ho hoperand (ih d.remaining (by omega) _ d rfl)

theorem halts_chain (loose : tier ≠ .primary) (hop : ∀ c, (p.moved c).Halts (.read tier.tighter))
    (c : Cursor) : (p.moved c).Halts (.read tier) := by
  have hoperand := hop c
  unfold Halts at hoperand ⊢
  rw [Task.parse_read loose]
  cases hr : (p.moved c).run (Task.read tier.tighter).parse with
  | mk result q =>
    rw [hr] at hoperand
    cases result with
    | error d =>
      rw [run_bind_of_error hr]
      exact .chainFails loose hoperand
    | ok first =>
      obtain ⟨d, _, rfl⟩ := exists_of_run_ok hr
      rw [run_bind_of_ok hr]
      exact .chain loose hoperand (halts_goOn hop first d)

theorem halts_group (rule : p.rules.operand? p.cursor.peek.kind = some .group)
    (entered : (p.moved p.cursor.next).enterGroup p.cursor.peek = (.ok (), q))
    (hin : q.Halts (.read .additive)) : p.Halts (.read .primary) := by
  show Ends (.read .primary) p (p.run Expr.primary)
  have hinside : Ends (.read .additive) q (q.run Expr.read) := hin
  rw [run_primary_of_group rule, run_group_of_entered entered]
  cases hr : q.run Expr.read with
  | mk result s =>
    rw [hr] at hinside
    cases result with
    | error d =>
      rw [run_inside_of_error hr]
      exact .groupFails rule entered hinside
    | ok e =>
      cases hclose : s.cursor.expect .closeParen .groupNotClosed with
      | error d =>
        rw [run_inside_of_unclosed hr hclose]
        exact .notClosed rule entered hinside hclose
      | ok r =>
        rw [run_inside_of_closed hr hclose]
        exact .group rule entered hinside hclose

theorem halts_primary (hin : ∀ q : Parser, p.room = q.room + 1 → q.Halts (.read .additive)) :
    p.Halts (.read .primary) := by
  have hrun := run_primary p
  show Ends (.read .primary) p (p.run Expr.primary)
  cases hrule : p.rules.operand? p.cursor.peek.kind with
  | none =>
    rw [hrule] at hrun
    rw [hrun]
    exact .notAnOperand hrule
  | some rule =>
    cases rule with
    | name =>
      rw [hrule] at hrun
      rw [hrun]
      exact .name hrule
    | number =>
      rw [hrule] at hrun
      rw [hrun]
      exact .number hrule
    | group =>
      cases hentered : (p.moved p.cursor.next).enterGroup p.cursor.peek with
      | mk result q =>
        cases result with
        | error d =>
          rw [run_primary_of_group hrule, run_group_of_refused hentered]
          exact .refused hrule hentered
        | ok _ => exact halts_group hrule hentered (hin q (room_of_entered hentered).1)

/-- Every chain and every operand comes to its end, whatever the rules, the place and the groups
that are open: what is in a group has less room than what is around it. -/
theorem halts_read (p : Parser) (tier : Tier) : p.Halts (.read tier) := by
  induction hroom : p.room using Nat.strongRecOn generalizing p tier with
  | ind room ih =>
    have hprimary : ∀ c, (p.moved c).Halts (.read .primary) := by
      refine fun c => halts_primary (fun q hq => ih q.room ?_ q .additive rfl)
      rw [room_moved] at hq
      omega
    have hmultiplicative : ∀ c, (p.moved c).Halts (.read .multiplicative) :=
      halts_chain (by decide) hprimary
    have hadditive : ∀ c, (p.moved c).Halts (.read .additive) :=
      halts_chain (by decide) hmultiplicative
    cases tier with
    | primary => exact hprimary p.cursor
    | multiplicative => exact hmultiplicative p.cursor
    | additive => exact hadditive p.cursor

end Task

section Statement

variable {constant : Bool} {name : String}

theorem run_readValue_of_semicolon (hk : p.cursor.peek.kind = .semicolon) :
    p.run (fun rules room => Declaration.readValue rules room constant name) =
      p.run (fun _ _ => Traced.valueless constant name) := by
  apply run_congr
  rw [Declaration.readValue_apply, if_pos hk]
  cases constant <;> rfl

theorem run_readValue_of_ne (hk : p.cursor.peek.kind ≠ .semicolon) :
    p.run (fun rules room => Declaration.readValue rules room constant name) =
      p.run (fun rules room => Declaration.readInitializer rules room constant name) := by
  apply run_congr
  rw [Declaration.readValue_apply, if_neg hk]

theorem run_statement_of_declares (hk : p.rules.declares p.cursor.peek.kind = true) :
    p.run Statement.read = p.run (fun rules room =>
      Declaration.read rules room >>= fun d => pure (.declaration d)) := by
  apply run_congr
  rw [Statement.read_apply, if_pos hk]

theorem run_statement_of_expresses (hk : ¬ p.rules.declares p.cursor.peek.kind = true) :
    p.run Statement.read = p.run (fun rules room =>
      Expr.read rules room >>= fun e => pure (.expression e)) := by
  apply run_congr
  rw [Statement.read_apply, if_neg hk]

end Statement

end Parser

/-- The steps of a parser without bounds: from which state it may come to which result and state. -/
def Steps (α : Type) := Parser → Except Diagnostic α × Parser → Prop

namespace Steps

variable {α β : Type}

def andThen (s : Steps α) (t : α → Steps β) : Steps β := fun p r =>
  (∃ a q, s p (.ok a, q) ∧ t a q r) ∨ ∃ d q, s p (.error d, q) ∧ r = (.error d, q)

instance : Monad Steps where
  pure a := fun p r => (.ok a, p) = r
  bind := andThen

def ofParse (parse : Parse α) : Steps α := fun p r => p.run (fun _ _ => parse) = r

def ofState (s : Parser → Steps α) : Steps α := fun p r => s p p r

def expression : Steps Expr := Parser.Ends (.read .additive)

def value (constant : Bool) (name : String) : Steps Declaration := ofState fun p =>
  if p.cursor.peek.kind = .semicolon then ofParse (Traced.valueless constant name)
  else do
    let _ ← ofParse (Parse.expect .equals .equalsMissing)
    let e ← expression
    let _ ← ofParse (Parse.expect .semicolon .semicolonMissing)
    pure ⟨constant, name, some e⟩

def declaration : Steps Declaration := do
  let keyword ← ofParse Parse.advance
  let name ← ofParse (Parse.expect .identifier .nameMissing)
  value (keyword.kind == .constKeyword) name.text

def statement : Steps Statement := ofState fun p =>
  if p.rules.declares p.cursor.peek.kind then do
    let d ← declaration
    pure (.declaration d)
  else do
    let e ← expression
    pure (.expression e)

/-- The steps lead from every state to one end, which is that of the parser with its bounds. -/
def Follows (s : Steps α) (parse : Rules → Nat → Parse α) : Prop := ∀ p r, s p r ↔ p.run parse = r

theorem follows_pure (a : α) : (pure a : Steps α).Follows (fun _ _ => pure a) := fun _ _ => Iff.rfl

theorem follows_ofParse (parse : Parse α) : (ofParse parse).Follows (fun _ _ => parse) :=
  fun _ _ => Iff.rfl

theorem Follows.bind {s : Steps α} {t : α → Steps β} {parse : Rules → Nat → Parse α}
    {next : α → Rules → Nat → Parse β} (hs : s.Follows parse) (ht : ∀ a, (t a).Follows (next a)) :
    (s >>= t).Follows (fun rules room => parse rules room >>= fun a => next a rules room) := by
  intro p r
  show andThen s t p r ↔ _
  cases hp : p.run parse with
  | mk result q =>
    cases result with
    | ok a =>
      rw [Parser.run_bind_of_ok hp, ← ht a q r]
      simp [andThen, hs p _, hp]
    | error d =>
      rw [Parser.run_bind_of_error hp]
      simp [andThen, hs p _, hp, eq_comm]

theorem follows_read (tier : Tier) :
    Follows (Parser.Ends (.read tier)) (Parser.Task.read tier).parse := by
  intro p r
  constructor
  · exact Parser.run_of_ends
  · rintro rfl
    exact Parser.halts_read p tier

theorem follows_expression : expression.Follows Expr.read := follows_read .additive

theorem follows_initializer (constant : Bool) (name : String) :
    (do
      let _ ← ofParse (Parse.expect .equals .equalsMissing)
      let e ← expression
      let _ ← ofParse (Parse.expect .semicolon .semicolonMissing)
      pure ⟨constant, name, some e⟩ : Steps Declaration).Follows
      (fun rules room => Declaration.readInitializer rules room constant name) :=
  (follows_ofParse _).bind (fun _ => follows_expression.bind (fun _ =>
    (follows_ofParse _).bind (fun _ => follows_pure _)))

theorem follows_value (constant : Bool) (name : String) :
    (value constant name).Follows
      (fun rules room => Declaration.readValue rules room constant name) := by
  intro p r
  rw [value, ofState]
  by_cases hk : p.cursor.peek.kind = .semicolon
  · rw [if_pos hk, Parser.run_readValue_of_semicolon hk]
    exact Iff.rfl
  · rw [if_neg hk, Parser.run_readValue_of_ne hk]
    exact follows_initializer constant name p r

theorem follows_declaration : declaration.Follows Declaration.read :=
  (follows_ofParse _).bind (fun keyword => (follows_ofParse _).bind (fun name =>
    follows_value (keyword.kind == .constKeyword) name.text))

theorem follows_statement : statement.Follows Statement.read := by
  intro p r
  rw [statement, ofState]
  by_cases hk : p.rules.declares p.cursor.peek.kind = true
  · rw [if_pos hk, Parser.run_statement_of_declares hk]
    exact follows_declaration.bind (fun d => follows_pure (.declaration d)) p r
  · rw [if_neg hk, Parser.run_statement_of_expresses hk]
    exact follows_expression.bind (fun e => follows_pure (.expression e)) p r

/-- `Rounds p starts r`: one statement after the other is read from the state `p` on, the first
token of each at the index in `starts`, until the input or a statement ends with the result `r`. -/
inductive Rounds : Parser → List Nat → Except Diagnostic (List Statement) → Prop where
  | done {p : Parser} (ended : p.cursor.atEnd = true) : Rounds p [] (.ok [])
  | fails {p q : Parser} {d : Diagnostic} (goesOn : p.cursor.atEnd = false)
      (first : statement p (.error d, q)) : Rounds p [p.cursor.position] (.error d)
  | cons {p q : Parser} {s : Statement} {starts : List Nat}
      {r : Except Diagnostic (List Statement)} (goesOn : p.cursor.atEnd = false)
      (first : statement p (.ok s, q)) (others : Rounds q starts r) :
      Rounds p (p.cursor.position :: starts) (r.map (s :: ·))

end Steps

namespace Parser

variable {α : Type} {p q : Parser}

/-- From the place of `p` to that of `q` a token or more has been passed, none of which closes the
input. -/
structure Passed (p q : Parser) : Prop where
  tokens : q.cursor.tokens = p.cursor.tokens
  position : p.cursor.position < q.cursor.position
  remaining : q.cursor.position + q.cursor.remaining = p.cursor.position + p.cursor.remaining

theorem Passed.position_le (h : p.Passed q) :
    q.cursor.position ≤ (p.cursor.tokens.takeWhile (fun t => !t.isEnd)).length := by
  rw [Cursor.length_takeWhile_tokens, ← h.remaining]
  exact Nat.le_add_right _ _

theorem passed_of_run {parse : Rules → Nat → Parse α} {a : α}
    (hadvances : (parse p.rules p.room).Advances) (h : p.run parse = (.ok a, q)) : p.Passed q := by
  obtain ⟨c, hc, rfl⟩ := exists_of_run_ok h
  obtain ⟨w, hne, hw⟩ := hadvances _ _ _ hc
  have hlength := List.length_pos_iff.2 hne
  have hposition := hw.position_eq
  have hremaining := hw.remaining_eq
  refine ⟨hw.tokens_eq, ?_, ?_⟩ <;> rw [cursor_moved] <;> omega

theorem passed_of_statement {s : Statement} (h : Steps.statement p (.ok s, q)) : p.Passed q :=
  passed_of_run (Statement.advances_read p.rules p.room) ((Steps.follows_statement p _).1 h)

def statements (p : Parser) : Except Diagnostic (List Statement) :=
  (Statement.all p.rules p.room p.cursor).2.mapError Failure.diagnostic

end Parser

namespace Steps.Rounds

variable {p : Parser} {starts : List Nat} {r : Except Diagnostic (List Statement)}

/-- Every round begins at a token of its own before the end, and adds one statement. -/
theorem bounded (h : Rounds p starts r) :
    starts.Pairwise (· < ·) ∧
      (∀ i ∈ starts, p.cursor.position ≤ i ∧ i < p.cursor.position + p.cursor.remaining) ∧
      starts.length ≤ p.cursor.remaining ∧ ∀ ss, r = .ok ss → ss.length = starts.length := by
  induction h with
  | done _ =>
    refine ⟨.nil, by simp, Nat.zero_le _, fun ss h => ?_⟩
    cases h
    rfl
  | @fails p q d goesOn _ =>
    have hpos : 0 < p.cursor.remaining := List.length_pos_iff.2 (Cursor.ahead_ne_nil goesOn)
    refine ⟨List.pairwise_singleton _ _, fun i hi => ?_, hpos, fun ss h => by cases h⟩
    rw [List.mem_singleton.1 hi]
    omega
  | @cons p q s starts r _ first _ ih =>
    obtain ⟨hrising, hbetween, hlength, hok⟩ := ih
    have hpassed := Parser.passed_of_statement first
    have hposition := hpassed.position
    have hremaining := hpassed.remaining
    refine ⟨List.pairwise_cons.2 ⟨fun i hi => ?_, hrising⟩, fun i hi => ?_, ?_, fun ss h => ?_⟩
    · have := hbetween i hi
      omega
    · rcases List.mem_cons.1 hi with rfl | hi
      · omega
      · have := hbetween i hi
        omega
    · rw [List.length_cons]
      omega
    · cases r with
      | error d => cases h
      | ok rest =>
        cases h
        rw [List.length_cons, List.length_cons, hok rest rfl]

theorem eq_statements (h : Rounds p starts r) : p.statements = r := by
  unfold Parser.statements
  induction h with
  | done ended =>
    rw [Statement.all_of_nil ((Cursor.atEnd_iff _).1 ended)]
    rfl
  | @fails p q d goesOn first =>
    obtain ⟨f, hf, rfl, _⟩ := Parser.exists_of_run_error ((follows_statement p _).1 first)
    rw [Statement.all_of_error (Cursor.ahead_ne_nil goesOn) hf]
    rfl
  | @cons p q s starts r _ first _ ih =>
    obtain ⟨c, hc, rfl⟩ := Parser.exists_of_run_ok ((follows_statement p _).1 first)
    rw [Statement.all_of_ok hc, ← ih]
    dsimp only [Parser.cursor_moved, Parser.rules_moved, Parser.room_moved]
    cases (Statement.all p.rules p.room c).2 <;> rfl

end Steps.Rounds

theorem Steps.exists_rounds (p : Parser) : ∃ starts r, Rounds p starts r := by
  induction hn : p.cursor.remaining using Nat.strongRecOn generalizing p with
  | ind n ih =>
    cases hend : p.cursor.atEnd with
    | true => exact ⟨_, _, .done hend⟩
    | false =>
      cases hr : p.run Statement.read with
      | mk result q =>
        have hfirst := (follows_statement p _).2 hr
        cases result with
        | error d => exact ⟨_, _, .fails hend hfirst⟩
        | ok s =>
          have hpassed := Parser.passed_of_statement hfirst
          have hposition := hpassed.position
          have hremaining := hpassed.remaining
          obtain ⟨starts, r, hothers⟩ := ih q.cursor.remaining (by omega) q rfl
          exact ⟨_, _, .cons hend hfirst hothers⟩

theorem Program.map_body_ofTokens (config : Config) (ts : List Token) :
    (ofTokens config ts).map body =
      (Parser.ofTokens (.standard config.matching) config.maxDepth ts).statements := by
  have hstatements : (Parser.ofTokens (.standard config.matching) config.maxDepth ts).statements =
      (Statement.all (.standard config.matching) config.maxDepth (Cursor.ofTokens ts)).2.mapError
        Failure.diagnostic := rfl
  rw [ofTokens_eq, hstatements]
  cases (Statement.all (.standard config.matching) config.maxDepth (Cursor.ofTokens ts)).2 <;> rfl

namespace Parser

/-- The steps come to one end from this state, which is that of the parser with its bounds; and
where that is a success, tokens have been passed, but none that closes the input. -/
structure Finishes {α : Type} (p : Parser) (steps : Steps α) (parse : Rules → Nat → Parse α) :
    Prop where
  ends : ∀ r, steps p r ↔ p.run parse = r
  tokens : ∀ a q, p.run parse = (.ok a, q) → q.cursor.tokens = p.cursor.tokens
  passes : ∀ a q, p.run parse = (.ok a, q) → p.cursor.position < q.cursor.position ∧
    q.cursor.position ≤ (p.cursor.tokens.takeWhile (fun t => !t.isEnd)).length

theorem finishes {α : Type} {steps : Steps α} {parse : Rules → Nat → Parse α} (p : Parser)
    (hfollows : steps.Follows parse) (hadvances : (parse p.rules p.room).Advances) :
    p.Finishes steps parse where
  ends := hfollows p
  tokens := fun _ _ h => (passed_of_run hadvances h).tokens
  passes := fun _ _ h =>
    ⟨(passed_of_run hadvances h).position, (passed_of_run hadvances h).position_le⟩

/-- Programs are read in finitely many steps, statement by statement, each of which begins at a
token of its own before the one that closes the input.  Expressions of every tier, declarations and
statements are read in finitely many steps from any state of a parser, whatever its rules, and
where that succeeds they pass a token at least. -/
theorem terminates :
    (∀ (config : Config) (ts : List Token),
      (∃ starts r,
        Steps.Rounds (ofTokens (.standard config.matching) config.maxDepth ts) starts r) ∧
      ∀ starts r, Steps.Rounds (ofTokens (.standard config.matching) config.maxDepth ts) starts r →
        (Program.ofTokens config ts).map Program.body = r ∧ starts.Pairwise (· < ·) ∧
        (∀ i ∈ starts, i < (ts.takeWhile (fun t => !t.isEnd)).length) ∧
        starts.length ≤ (ts.takeWhile (fun t => !t.isEnd)).length ∧
        ∀ ss, r = .ok ss → ss.length = starts.length) ∧
    ∀ p : Parser, (∀ tier, p.Finishes (Ends (.read tier)) (Task.read tier).parse) ∧
      p.Finishes Steps.statement Statement.read ∧
      p.Finishes Steps.declaration Declaration.read := by
  refine ⟨fun config ts => ⟨Steps.exists_rounds _, fun starts r h => ?_⟩,
    fun p => ⟨fun tier => ?_, ?_, ?_⟩⟩
  · have hstart :
        (ofTokens (.standard config.matching) config.maxDepth ts).cursor.position = 0 := by
      simp [ofTokens, Cursor.position]
    have hremaining : (ofTokens (.standard config.matching) config.maxDepth ts).cursor.remaining =
        (ts.takeWhile (fun t => !t.isEnd)).length := by
      simp [ofTokens, Cursor.remaining]
    obtain ⟨hrising, hbetween, hlength, hok⟩ := h.bounded
    rw [hstart, hremaining, Nat.zero_add] at hbetween
    rw [hremaining] at hlength
    rw [Program.map_body_ofTokens]
    exact ⟨h.eq_statements, hrising, fun i hi => (hbetween i hi).2, hlength, hok⟩
  · exact p.finishes (Steps.follows_read tier) (Task.advances_parseTier tier _ _)
  · exact p.finishes Steps.follows_statement (Statement.advances_read _ _)
  · exact p.finishes Steps.follows_declaration (Declaration.advances_read _ _)

/-- A sum that the token which closes the input seems to go on with, and a name beyond it. -/
def cutShort : List Token :=
  [⟨.identifier, "a", Span.null⟩, ⟨.endOfInput, "+", Span.null⟩, ⟨.identifier, "b", Span.null⟩]

theorem terminates_cutShort :
    (∃ starts r, Steps.Rounds (ofTokens (.standard .byText) 256 cutShort) starts r) ∧
      Program.ofTokens {} cutShort =
        .error (.unexpected ⟨.endOfInput, "+", Span.null⟩ .notAnOperand) ∧
      (ofTokens ((Rules.empty .byText).addOperand .semicolon .group) 2 cutShort).Finishes
        Steps.statement Statement.read :=
  ⟨(terminates.1 {} cutShort).1, by decide +kernel, (terminates.2 _).2.1⟩

end Parser

end LetArith
