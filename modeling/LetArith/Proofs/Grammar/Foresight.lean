import LetArith.Proofs.Grammar.Nesting
import LetArith.Proofs.Grammar.Running

/-! One token ahead.  What a parser that succeeds has read is told by the tokens it has passed and
the one it stops at, whatever its rules are: over other tokens that are the same up to that one, it
succeeds with the same result in the same place. -/

namespace LetArith

namespace Cursor

theorem drop_position_tokens (c : Cursor) : c.tokens.drop c.position = c.rest ++ c.beyond := by
  rw [tokens_eq, position, List.drop_left' (List.length_reverse)]

theorem exists_passes_up_to {c : Cursor} {w ts : List Token} {t : Token}
    (h : c.rest ++ c.beyond = w ++ t :: ts) (hw : ∀ u ∈ w, u.isEnd = false) :
    ∃ d, c.Passes w d ∧ d.peek = t := by
  induction w generalizing c with
  | nil =>
    rw [rest_eq_cons] at h
    exact ⟨c, .refl c, (List.cons.inj h).1⟩
  | cons u w ih =>
    have hpeek : c.peek = u := by
      rw [rest_eq_cons] at h
      exact (List.cons.inj h).1
    have hopen : c.peek.isEnd = false := by
      rw [hpeek]
      exact hw u (by simp)
    obtain ⟨hahead, hnext⟩ := rest_of_isEnd_false c.rest_eq_cons hopen
    have hrest : c.next.rest ++ c.next.beyond = w ++ t :: ts := by
      rw [rest_eq_cons] at h
      rw [hnext, beyond_next]
      exact (List.cons.inj h).2
    obtain ⟨d, hp, hd⟩ := ih hrest (fun v hv => hw v (by simp [hv]))
    rw [← hpeek]
    exact ⟨d, (Passes.next hahead).trans hp, hd⟩

theorem Passes.transfer {c c' d : Cursor} {w : List Token} (h : c.Passes w d)
    (hposition : c'.position = c.position)
    (htokens : c'.tokens.take (d.position + 1) = c.tokens.take (d.position + 1)) :
    ∃ d', c'.Passes w d' ∧ d'.peek = d.peek := by
  have hahead := congrArg (List.drop c.position) htokens
  rw [List.drop_take, List.drop_take, drop_position_tokens c, ← hposition, drop_position_tokens c',
    hposition, h.position_eq, h.rest_eq, rest_eq_cons d] at hahead
  have hlength : c.position + w.length + 1 - c.position = w.length + 1 := by omega
  have hfirst : (w ++ d.peek :: d.rest.tail ++ c.beyond).take (w.length + 1) = w ++ [d.peek] := by
    simp [List.take_append]
  rw [hlength, hfirst] at hahead
  have hsplit := List.take_append_drop (w.length + 1) (c'.rest ++ c'.beyond)
  rw [hahead, List.append_assoc] at hsplit
  exact exists_passes_up_to hsplit.symm (fun u hu => h.isEnd_of_mem hu)

end Cursor

namespace Parse

variable {α β : Type} {p q : Parse α} {c : Cursor}

/-- A success from `c` is decided by the tokens it passes and by the next one. -/
def LocalAt (p : Parse α) (c : Cursor) : Prop :=
  ∀ a d, p c = .ok (a, d) → ∃ w, c.Passes w d ∧
    ∀ c' d', c'.Passes w d' → d'.peek = d.peek → p c' = .ok (a, d')

theorem localAt_pure (a : α) (c : Cursor) : LocalAt (pure a) c := by
  intro b d h
  cases h
  refine ⟨[], .refl c, fun c' d' hp _ => ?_⟩
  rw [hp.eq_of_nil]
  rfl

theorem localAt_fail (d : Diagnostic) (c : Cursor) : LocalAt (fail d : Parse α) c := by
  intro a e h
  cases h

theorem localAt_advance (c : Cursor) : LocalAt advance c := by
  intro t d h
  cases h
  cases hend : c.peek.isEnd with
  | true =>
    have hstays : ∀ c' : Cursor, c'.peek = c.peek → c'.next = c' := fun c' hc' =>
      Cursor.next_of_nil (Cursor.ahead_eq_nil (by rw [hc', hend]))
    rw [hstays c rfl]
    refine ⟨[], .refl c, fun c' d' hp hd => ?_⟩
    obtain rfl := hp.eq_of_nil
    rw [advance_apply, hd, hstays c' hd]
  | false =>
    refine ⟨[c.peek], .next (Cursor.ahead_of_isEnd_false hend), fun c' d' hp _ => ?_⟩
    obtain ⟨hpeek, hnext⟩ := hp.of_cons
    rw [advance_apply, hpeek, hnext.eq_of_nil]

theorem localAt_expect {kind : Kind} {complaint : Complaint} (hk : kind ≠ .endOfInput)
    (c : Cursor) : LocalAt (expect kind complaint) c := by
  intro t d h
  obtain ⟨hkind, rfl, rfl⟩ := expect_eq_ok_iff.1 h
  refine ⟨[c.peek], .next_of_kind hkind hk, fun c' d' hp _ => ?_⟩
  obtain ⟨hpeek, hnext⟩ := hp.of_cons
  exact expect_eq_ok_iff.2 ⟨by rw [hpeek, hkind], hpeek.symm, hnext.eq_of_nil.symm⟩

/-- The first token that the second parser reads is the one that the first stops at. -/
theorem LocalAt.bind {f : α → Parse β} (hp : LocalAt p c)
    (hf : ∀ a d, p c = .ok (a, d) → LocalAt (f a) d) : LocalAt (p >>= f) c := by
  intro b e h
  obtain ⟨a, d, h₁, h₂⟩ := bind_eq_ok_iff.1 h
  obtain ⟨u, hu, hfirst⟩ := hp a d h₁
  obtain ⟨v, hv, hsecond⟩ := hf a d h₁ b e h₂
  refine ⟨u ++ v, hu.trans hv, fun c' e' hce he => ?_⟩
  obtain ⟨d', hu', hv'⟩ := hce.split
  have hpeek : d'.peek = d.peek := by rw [hv'.peek_eq, hv.peek_eq, he]
  rw [bind_of_ok (hfirst c' d' hu' hpeek)]
  exact hsecond d' e' hv' he

theorem LocalAt.of_peek (h : LocalAt q c) (heq : ∀ c', c'.peek = c.peek → p c' = q c') :
    LocalAt p c := by
  intro a d hp
  rw [heq c rfl] at hp
  obtain ⟨w, hw, hall⟩ := h a d hp
  refine ⟨w, hw, fun c' d' hw' hd' => ?_⟩
  rw [heq c' (by rw [hw'.peek_eq, hw.peek_eq, hd'])]
  exact hall c' d' hw' hd'

theorem LocalAt.inGroup (h : LocalAt p c) : LocalAt p.inGroup c := by
  intro a d hp
  obtain ⟨w, hw, hall⟩ := h a d (inGroup_eq_ok_iff.1 hp)
  exact ⟨w, hw, fun c' d' hw' hd' => inGroup_eq_ok_iff.2 (hall c' d' hw' hd')⟩

end Parse

open Parse

variable {rules : Rules} {room : Nat}

namespace Expr

section Chain

variable {operator? : Token → Option Operator} {operand : Parse Expr}
  (hadv : operand.Advances) (hop : ∀ c, LocalAt operand c)

include hadv hop

/-- A chain looks at the token behind each of its operands, and no further. -/
theorem localAt_chainRest (left : Expr) (c : Cursor) :
    LocalAt (chainRest operator? operand left) c := by
  induction hn : c.remaining using Nat.strongRecOn generalizing c left with
  | ind n ih =>
    cases ho : operator? c.peek with
    | none =>
      refine (localAt_pure left c).of_peek (fun c' hc' => ?_)
      rw [chainRest_of_none (by rw [hc', ho])]
      rfl
    | some op =>
      have hstep : LocalAt (advance >>= fun _ => operand >>= fun right =>
          chainRest operator? operand (binary left op right)) c := by
        refine (localAt_advance c).bind (fun _ d hd => (hop d).bind (fun right e he => ?_))
        cases hd
        have hlt := remaining_lt hadv he
        have hle : c.next.remaining ≤ c.remaining := by simp [Cursor.remaining, Cursor.ahead_next]
        exact ih e.remaining (by omega) _ e rfl
      refine hstep.of_peek (fun c' hc' => ?_)
      rw [chainRest_of_some hadv (by rw [hc', ho]), bind_of_ok (advance_apply c')]

theorem localAt_chain (c : Cursor) : LocalAt (chain operator? operand) c :=
  (hop c).bind (fun left d _ => localAt_chainRest hadv hop left d)

end Chain

theorem localAt_readIdentifier (c : Cursor) : LocalAt readIdentifier c :=
  (localAt_expect (by decide) c).bind (fun _ d _ => localAt_pure _ d)

theorem localAt_readNumber (c : Cursor) : LocalAt readNumber c := by
  refine (localAt_expect (by decide) c).bind (fun t d _ => ?_)
  cases Binary64.finiteOfText? t.text with
  | some x => exact localAt_pure _ d
  | none => exact localAt_fail _ d

theorem localAt_refusedGroup (c : Cursor) : LocalAt refusedGroup c := by
  intro a d h
  cases h

theorem localAt_groupOf {inner : Parse Expr} (h : ∀ c, LocalAt inner c) (c : Cursor) :
    LocalAt (groupOf inner) c := by
  refine (localAt_advance c).bind (fun _ d _ => LocalAt.inGroup ((h d).bind (fun _ e _ => ?_)))
  exact (localAt_expect (by decide) e).bind (fun _ f _ => localAt_pure _ f)

theorem localAt_operand {group : Parse Expr} (h : ∀ c, LocalAt group c) (c : Cursor) :
    LocalAt (operand rules group) c := by
  cases hr : rules.operand? c.peek.kind with
  | none =>
    refine (localAt_fail (.unexpected c.peek .notAnOperand) c).of_peek (fun c' hc' => ?_)
    rw [operand_apply, hc', hr]
    rfl
  | some rule =>
    cases rule with
    | name =>
      refine (localAt_readIdentifier c).of_peek (fun c' hc' => ?_)
      rw [operand_apply, hc', hr]
    | number =>
      refine (localAt_readNumber c).of_peek (fun c' hc' => ?_)
      rw [operand_apply, hc', hr]
    | group =>
      refine (h c).of_peek (fun c' hc' => ?_)
      rw [operand_apply, hc', hr]

theorem localAt_additive {primary : Parse Expr} (hadv : primary.Advances)
    (h : ∀ c, LocalAt primary c) (c : Cursor) : LocalAt (additive rules primary) c :=
  localAt_chain (advances_chain hadv) (localAt_chain hadv h) c

theorem localAt_primary (rules : Rules) (room : Nat) (c : Cursor) :
    LocalAt (primary rules room) c := by
  induction room generalizing c with
  | zero => exact localAt_operand localAt_refusedGroup c
  | succ room ih =>
    exact localAt_operand (localAt_groupOf (localAt_additive (advances_primary rules room) ih)) c

theorem localAt_read (rules : Rules) (room : Nat) (c : Cursor) : LocalAt (read rules room) c :=
  localAt_additive (advances_primary rules room) (localAt_primary rules room) c

end Expr

namespace Declaration

theorem localAt_readInitializer (constant : Bool) (name : String) (c : Cursor) :
    LocalAt (readInitializer rules room constant name) c := by
  refine (localAt_expect (by decide) c).bind (fun _ d _ => ?_)
  refine (Expr.localAt_read rules room d).bind (fun _ e _ => ?_)
  exact (localAt_expect (by decide) e).bind (fun _ f _ => localAt_pure _ f)

theorem localAt_readValue (constant : Bool) (name : String) (c : Cursor) :
    LocalAt (readValue rules room constant name) c := by
  by_cases hk : c.peek.kind = .semicolon
  · have hvalueless : LocalAt (Traced.valueless constant name) c := by
      refine (localAt_advance c).bind (fun _ d _ => ?_)
      cases constant with
      | true => exact localAt_fail _ d
      | false => exact localAt_pure _ d
    refine hvalueless.of_peek (fun c' hc' => ?_)
    rw [readValue_apply, hc', if_pos hk]
    cases constant with
    | true =>
      rw [← hc']
      rfl
    | false => rfl
  · have hinitializer : LocalAt (readInitializer rules room constant name) c :=
      localAt_readInitializer constant name c
    refine hinitializer.of_peek (fun c' hc' => ?_)
    rw [readValue_apply, hc', if_neg hk]

theorem localAt_read (rules : Rules) (room : Nat) (c : Cursor) : LocalAt (read rules room) c :=
  (localAt_advance c).bind (fun _ d _ => (localAt_expect (by decide) d).bind
    (fun _ e _ => localAt_readValue _ _ e))

end Declaration

theorem Statement.localAt_read (rules : Rules) (room : Nat) (c : Cursor) :
    LocalAt (read rules room) c := by
  by_cases hk : rules.declares c.peek.kind = true
  · refine ((Declaration.localAt_read rules room c).bind
      (fun d e _ => localAt_pure (declaration d) e)).of_peek (fun c' hc' => ?_)
    rw [read_apply, hc', if_pos hk]
  · refine ((Expr.localAt_read rules room c).bind
      (fun e d _ => localAt_pure (expression e) d)).of_peek (fun c' hc' => ?_)
    rw [read_apply, hc', if_neg hk]

namespace Parser

variable {α : Type} {p : Parser}

/-- The parser `q` is in the state of `p` but for its tokens, which are the same up to the one with
the index `k`. -/
structure AgreesTo (k : Nat) (p q : Parser) : Prop where
  rules : q.rules = p.rules
  depth : q.depth = p.depth
  maxDepth : q.maxDepth = p.maxDepth
  position : q.cursor.position = p.cursor.position
  tokens : q.cursor.tokens.take (k + 1) = p.cursor.tokens.take (k + 1)

/-- Where the parser succeeds, it does so in every other state with the same tokens up to the one it
stops at, and leaves both states in the same way. -/
def Foresees (p : Parser) (parse : Rules → Nat → Parse α) : Prop :=
  ∀ a q, p.run parse = (.ok a, q) → ∀ p', p.AgreesTo q.cursor.position p' →
    ∃ q', p'.run parse = (.ok a, q') ∧ q.AgreesTo q.cursor.position q' ∧
      q'.cursor.tokens = p'.cursor.tokens

theorem foresees {parse : Rules → Nat → Parse α} (h : (parse p.rules p.room).LocalAt p.cursor) :
    p.Foresees parse := by
  intro a q hrun p' hagrees
  obtain ⟨d, hd, rfl⟩ := exists_of_run_ok hrun
  obtain ⟨w, hw, hall⟩ := h a d hd
  obtain ⟨d', hw', hpeek⟩ := hw.transfer hagrees.position hagrees.tokens
  have hroom : p'.room = p.room := by rw [room, room, hagrees.maxDepth, hagrees.depth]
  have hd' : parse p'.rules p'.room p'.cursor = .ok (a, d') := by
    rw [hagrees.rules, hroom]
    exact hall _ d' hw' hpeek
  have hposition : d'.position = d.position := by
    rw [hw'.position_eq, hw.position_eq, hagrees.position]
  have htokens : d'.tokens.take (d.position + 1) = d.tokens.take (d.position + 1) := by
    rw [hw'.tokens_eq, hw.tokens_eq]
    exact hagrees.tokens
  exact ⟨p'.moved d', run_of_ok hd',
    ⟨hagrees.rules, hagrees.depth, hagrees.maxDepth, hposition, htokens⟩, hw'.tokens_eq⟩

/-- Expressions, statements and declarations are read with one token of lookahead: tokens beyond the
one that follows them are no matter. -/
theorem reads_one_ahead (p : Parser) :
    p.Foresees Expr.read ∧ p.Foresees Statement.read ∧ p.Foresees Declaration.read :=
  ⟨foresees (Expr.localAt_read _ _ _), foresees (Statement.localAt_read _ _ _),
    foresees (Declaration.localAt_read _ _ _)⟩

/-- The parser behind a token that opens a group, with two groups open. -/
def amidst (ts : List Token) : Parser :=
  { ofTokens (.standard .byText) 256 (⟨.openParen, "(", Span.null⟩ :: ts) with
    cursor := (Cursor.ofTokens (⟨.openParen, "(", Span.null⟩ :: ts)).next, depth := 2 }

/-- A sum that is followed by an equals sign, and by nothing or by more than that. -/
def followed (ts : List Token) : List Token :=
  [⟨.identifier, "a", Span.null⟩, ⟨.plus, "+", Span.null⟩, ⟨.identifier, "b", Span.null⟩,
    ⟨.equals, "=", Span.null⟩] ++ ts

theorem reads_one_ahead_followed :
    ∃ q', (amidst (followed [⟨.slash, "/", Span.null⟩])).run Expr.read =
        (.ok (.binary (.identifier "a") .add (.identifier "b")), q') ∧
      q'.cursor.position = 4 ∧ q'.depth = 2 := by
  have hrun : (amidst (followed [])).run Expr.read =
      (.ok (.binary (.identifier "a") .add (.identifier "b")),
        (amidst (followed [])).moved (amidst (followed [])).cursor.next.next.next) := rfl
  obtain ⟨q', hq', hagrees, _⟩ := (reads_one_ahead (amidst (followed []))).1 _ _ hrun
    (amidst (followed [⟨.slash, "/", Span.null⟩])) ⟨rfl, rfl, rfl, rfl, rfl⟩
  exact ⟨q', hq', hagrees.position, hagrees.depth⟩

end Parser

end LetArith
