import LetArith.Proofs.Grammar.Running
import LetArith.Proofs.Grammar.Sequence
import Mathlib.Data.List.Forall2

/-! What a log tells of a reading.  It has a line before the statements, one for each statement
that is begun, and a last one if none of them fails.  The line of a statement is written before
any of its tokens is passed, from the kind of the first alone; if the statement is read to its
end, that kind has decided what it is. -/

namespace LetArith

theorem Kind.eq_of_name {k k' : Kind} (h : k.name = k'.name) : k = k' := by
  have hsome := ofName?_name k
  rw [h, ofName?_name] at hsome
  exact (Option.some.inj hsome).symm

namespace Statement

variable {m : Matching} {room : Nat} {t next : Token} {ts : List Token} {s : Statement}

theorem Derives.keyword (h : Derives m room (t :: ts) next s) :
    (t.kind = .constKeyword ∧ ∃ d, s = declaration d ∧ d.constant = true) ∨
      (t.kind = .letKeyword ∧ ∃ d, s = declaration d ∧ d.constant = false) ∨
      (¬ (t.kind = .letKeyword ∨ t.kind = .constKeyword) ∧ ∃ e, s = .expression e) := by
  cases h with
  | bare keyword _ _ => exact Or.inr (Or.inl ⟨keyword, _, rfl, rfl⟩)
  | valued keyword _ _ _ _ =>
    rcases keyword with keyword | keyword
    · exact Or.inr (Or.inl ⟨keyword, _, rfl, by rw [keyword]; rfl⟩)
    · exact Or.inl ⟨keyword, _, rfl, by rw [keyword]; rfl⟩
  | expression value =>
    refine Or.inr (Or.inr ⟨fun hkeyword => ?_, _, rfl⟩)
    rcases value.1.head_kind with h | h | h <;> rw [h] at hkeyword <;> simp at hkeyword

end Statement

namespace Line

def ofKind (first : Kind) : Line where
  level := .trace
  message :=
    if first = .letKeyword ∨ first = .constKeyword then "dispatching statement"
    else "parsing expression statement"
  details := [("kind", .name first.name)]

theorem ofKind_eq_iff {k k' : Kind} : ofKind k = ofKind k' ↔ k = k' := by
  refine ⟨fun h => Kind.eq_of_name ?_, congrArg ofKind⟩
  simpa [ofKind] using congrArg details h

theorem message_ofKind_eq_iff {k : Kind} :
    (ofKind k).message = "parsing expression statement" ↔
      ¬ (k = .letKeyword ∨ k = .constKeyword) := by
  unfold ofKind
  dsimp only
  split
  · next hk => simp [hk]
  · next hk => simp [hk]

theorem line_ofStatement (m : Matching) (first : Kind) :
    (Event.ofStatement (.standard m) first).line = ofKind first := by
  cases first <;> rfl

/-- A line tells what a statement is: a constant, another declaration, or an expression. -/
structure Tells (l : Line) (s : Statement) : Prop where
  constant : l = ofKind .constKeyword ↔ ∃ d, s = .declaration d ∧ d.constant = true
  changeable : l = ofKind .letKeyword ↔ ∃ d, s = .declaration d ∧ d.constant = false
  expression : l.message = "parsing expression statement" ↔ ∃ e, s = .expression e

theorem tells_of_derives {m : Matching} {room : Nat} {t next : Token} {ts : List Token}
    {s : Statement} (h : Statement.Derives m room (t :: ts) next s) :
    (ofKind t.kind).Tells s := by
  rcases h.keyword with ⟨hk, d, rfl, hd⟩ | ⟨hk, d, rfl, hd⟩ | ⟨hk, e, rfl⟩
  · constructor <;> simp [ofKind_eq_iff, message_ofKind_eq_iff, hk, hd]
  · constructor <;> simp [ofKind_eq_iff, message_ofKind_eq_iff, hk, hd]
  · have hparts := not_or.1 hk
    constructor <;> simp [ofKind_eq_iff, message_ofKind_eq_iff, hparts]

end Line

namespace Parser

/-- `Reads p done q`: the statements in `done` are read one after the other from the state `p`
to `q`.  Each of them stands with the token that it begins with. -/
inductive Reads : Parser → List (Token × Statement) → Parser → Prop where
  | nil {p : Parser} : Reads p [] p
  | cons {p q r : Parser} {s : Statement} {done : List (Token × Statement)}
      (goesOn : p.cursor.atEnd = false) (first : p.run Statement.read = (.ok s, q))
      (others : Reads q done r) : Reads p ((p.cursor.peek, s) :: done) r

variable {p q : Parser} {m : Matching} {s : Statement} {done : List (Token × Statement)}

theorem rules_of_run {α : Type} {parse : Rules → Nat → Parse α} {a : α}
    (h : p.run parse = (.ok a, q)) : q.rules = p.rules := by
  obtain ⟨c, _, rfl⟩ := exists_of_run_ok h
  rfl

theorem tells_of_run (hrules : p.rules = .standard m) (h : p.run Statement.read = (.ok s, q)) :
    (Line.ofKind p.cursor.peek.kind).Tells s := by
  obtain ⟨c, hc, _⟩ := exists_of_run_ok h
  rw [hrules] at hc
  obtain ⟨w, hw, hderives⟩ := (Statement.recognizes_read m p.room _ _ _).1 hc
  obtain ⟨t, ts, rfl⟩ := List.exists_cons_of_ne_nil hderives.ne_nil
  rw [hw.of_cons.1]
  exact Line.tells_of_derives hderives

theorem Reads.tells (h : p.Reads done q) (hrules : p.rules = .standard m) :
    List.Forall₂ Line.Tells (done.map (fun r => Line.ofKind r.1.kind)) (done.map Prod.snd) := by
  induction h with
  | nil => exact .nil
  | cons _ first _ ih =>
    exact .cons (tells_of_run hrules first) (ih ((rules_of_run first).trans hrules))

/-- The statements that are read one after the other come first, with the kinds of their first
tokens. -/
theorem Reads.all_eq (h : p.Reads done q) :
    Statement.all p.rules p.room p.cursor =
      (done.map (fun r => r.1.kind) ++ (Statement.all q.rules q.room q.cursor).1,
        (Statement.all q.rules q.room q.cursor).2.map (done.map Prod.snd ++ ·)) := by
  induction h with
  | @nil p =>
    cases Statement.all p.rules p.room p.cursor with
    | mk kinds result => cases result <;> rfl
  | @cons p q r s done _ first _ ih =>
    obtain ⟨c, hc, rfl⟩ := exists_of_run_ok first
    dsimp only [cursor_moved, rules_moved, room_moved] at ih
    rw [Statement.all_of_ok hc, ih]
    cases (Statement.all r.rules r.room r.cursor).2 <;> rfl

theorem Reads.all_of_end (h : p.Reads done q) (hend : q.cursor.atEnd = true) :
    Statement.all p.rules p.room p.cursor =
      (done.map (fun r => r.1.kind), .ok (done.map Prod.snd)) := by
  rw [h.all_eq, Statement.all_of_nil ((Cursor.atEnd_iff _).1 hend)]
  simp [Except.map]

theorem Reads.all_of_failing (h : p.Reads done q) {f : Failure} (hopen : q.cursor.atEnd = false)
    (hf : Statement.read q.rules q.room q.cursor = .error f) :
    Statement.all p.rules p.room p.cursor =
      (done.map (fun r => r.1.kind) ++ [q.cursor.peek.kind], .error f) := by
  rw [h.all_eq, Statement.all_of_error (Cursor.ahead_ne_nil hopen) hf]
  rfl

/-- From every state on, statements are read until the input ends or one of them fails. -/
theorem exists_reads (p : Parser) :
    ∃ done q, p.Reads done q ∧
      (q.cursor.atEnd = true ∨
        ∃ d r, q.cursor.atEnd = false ∧ q.run Statement.read = (.error d, r)) := by
  induction hn : p.cursor.remaining using Nat.strongRecOn generalizing p with
  | ind n ih =>
    cases hend : p.cursor.atEnd with
    | true => exact ⟨[], p, .nil, Or.inl hend⟩
    | false =>
      cases hrun : p.run Statement.read with
      | mk result q =>
        cases result with
        | error d => exact ⟨[], p, .nil, Or.inr ⟨d, q, hend, hrun⟩⟩
        | ok s =>
          obtain ⟨c, hc, rfl⟩ := exists_of_run_ok hrun
          have hlt := Parse.remaining_lt (Statement.advances_read _ _) hc
          rw [hn] at hlt
          obtain ⟨done, r, hothers, hstops⟩ := ih c.remaining hlt (p.moved c) rfl
          exact ⟨_, r, .cons hend hrun hothers, hstops⟩

end Parser

namespace Reading

/-- The line before the statements. -/
def opening (config : Config) (ts : List Token) : Line where
  level := .debug
  message := "parsing program"
  details := [("tokens", .count (ts.takeWhile (fun t => !t.isEnd)).length),
    ("matching", .name (match config.matching with
      | .byText => "Lexeme"
      | .byKind => "TokenKind"))]

def closing (statements : Nat) : Line where
  level := .debug
  message := "parsed program"
  details := [("statements", .count statements)]

def scanning (tokens : Nat) : Line where
  level := .trace
  message := "tokenized source"
  details := [("count", .count tokens)]

theorem log_ofTokens (config : Config) (ts : List Token) :
    (ofTokens config ts).log =
      opening config ts ::
        ((Statement.all (.standard config.matching) config.maxDepth (Cursor.ofTokens ts)).1.map
          Line.ofKind ++ (Event.ofEnd (ofTokens config ts).result).map Event.line) := by
  generalize hkinds :
    (Statement.all (.standard config.matching) config.maxDepth (Cursor.ofTokens ts)).1 = kinds
  have hevents : (ofTokens config ts).events =
      .began (Cursor.ofTokens ts).remaining config.matching ::
        (kinds.map (Event.ofStatement (.standard config.matching)) ++
          Event.ofEnd (ofTokens config ts).result) := by
    rw [← hkinds]
    rfl
  have hopening : (Event.began (Cursor.ofTokens ts).remaining config.matching).line =
      opening config ts := by
    rw [Cursor.remaining, Cursor.ahead_ofTokens, opening]
    cases config.matching <;> rfl
  rw [log, hevents, List.map_cons, hopening, List.map_append, List.map_map]
  congr 3
  funext first
  exact Line.line_ofStatement config.matching first

variable {config : Config} {ts : List Token} {kinds : List Kind}

theorem log_of_ok {ss : List Statement}
    (h : Statement.all (.standard config.matching) config.maxDepth (Cursor.ofTokens ts) =
      (kinds, .ok ss)) :
    (ofTokens config ts).result = .ok ⟨ss⟩ ∧
      (ofTokens config ts).log =
        opening config ts :: (kinds.map Line.ofKind ++ [closing ss.length]) := by
  have hresult := Program.ofTokens_eq config ts
  rw [h] at hresult
  replace hresult : (ofTokens config ts).result = .ok ⟨ss⟩ := hresult
  refine ⟨hresult, ?_⟩
  rw [log_ofTokens, h, hresult]
  rfl

theorem log_of_error {f : Failure}
    (h : Statement.all (.standard config.matching) config.maxDepth (Cursor.ofTokens ts) =
      (kinds, .error f)) :
    (ofTokens config ts).result = .error f.diagnostic ∧
      (ofTokens config ts).log = opening config ts :: kinds.map Line.ofKind := by
  have hresult := Program.ofTokens_eq config ts
  rw [h] at hresult
  replace hresult : (ofTokens config ts).result = .error f.diagnostic := hresult
  refine ⟨hresult, ?_⟩
  rw [log_ofTokens, h, hresult]
  exact congrArg _ (List.append_nil _)

theorem length_of_tokenize {file source : String} (h : tokenize file source = .ok ts) :
    ts.length = (ts.takeWhile (fun t => !t.isEnd)).length + 1 := by
  obtain ⟨w, place, rfl, hspelled⟩ := Program.exists_spelled h
  have hahead := (Program.cursor_of_spelled hspelled place).1
  rw [Cursor.ahead_ofTokens] at hahead
  rw [hahead, List.length_append, List.length_singleton]

/-- The log follows the reading.  Its statements are those in `done`, which are complete, and the
one that fails, if one does. -/
theorem log_faithful :
    (∀ (config : Config) (ts : List Token), ∃ done q,
      (Parser.ofTokens (.standard config.matching) config.maxDepth ts).Reads done q ∧
      List.Forall₂ Line.Tells (done.map (fun r => Line.ofKind r.1.kind)) (done.map Prod.snd) ∧
      ((q.cursor.atEnd = true ∧
          (ofTokens config ts).result = .ok ⟨done.map Prod.snd⟩ ∧
          (ofTokens config ts).log =
            opening config ts ::
              (done.map (fun r => Line.ofKind r.1.kind) ++ [closing done.length])) ∨
        ∃ d r, q.cursor.atEnd = false ∧ q.run Statement.read = (.error d, r) ∧
          (ofTokens config ts).result = .error d ∧
          (ofTokens config ts).log =
            opening config ts ::
              (done.map (fun r => Line.ofKind r.1.kind) ++ [Line.ofKind q.cursor.peek.kind]))) ∧
    ∀ (config : Config) (source : String),
      match tokenize config.fileName source with
      | .error d => (ofSource config source).result = .error d ∧ (ofSource config source).log = []
      | .ok ts =>
        (ofSource config source).result = (ofTokens config ts).result ∧
          (ofSource config source).log = scanning ts.length :: (ofTokens config ts).log ∧
          ts.length = (ts.takeWhile (fun t => !t.isEnd)).length + 1 := by
  refine ⟨fun config ts => ?_, fun config source => ?_⟩
  · obtain ⟨done, q, hreads, hstops⟩ :=
      Parser.exists_reads (Parser.ofTokens (.standard config.matching) config.maxDepth ts)
    refine ⟨done, q, hreads, hreads.tells rfl, ?_⟩
    rcases hstops with hend | ⟨d, r, hopen, hrun⟩
    · obtain ⟨hresult, hlog⟩ := log_of_ok (hreads.all_of_end hend)
      refine Or.inl ⟨hend, hresult, ?_⟩
      rw [hlog, List.map_map, List.length_map]
      rfl
    · obtain ⟨f, hf, rfl, _⟩ := Parser.exists_of_run_error hrun
      obtain ⟨hresult, hlog⟩ := log_of_error (hreads.all_of_failing hopen hf)
      refine Or.inr ⟨_, r, hopen, hrun, hresult, ?_⟩
      rw [hlog, List.map_append, List.map_map]
      rfl
  · unfold ofSource
    cases hscan : tokenize config.fileName source with
    | error d => exact ⟨rfl, rfl⟩
    | ok ts => exact ⟨rfl, rfl, length_of_tokenize hscan⟩

example :
    (ofSource {} "const c = 1; c c +").log =
      [scanning 9, ⟨.debug, "parsing program", [("tokens", .count 8), ("matching", .name "Lexeme")]⟩,
        Line.ofKind .constKeyword, Line.ofKind .identifier, Line.ofKind .identifier] := by
  decide +kernel

end Reading

end LetArith
