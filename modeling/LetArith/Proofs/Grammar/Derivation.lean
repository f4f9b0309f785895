import LetArith.Grammar.Rules
import LetArith.Tree

/-! The grammar, apart from any parser.  A derivation names the tokens it stands for and the
token that follows them: a chain of operands ends only where no operator of its tier follows,
and which tokens are operators depends on the matching alone, not on what else they may be. -/

namespace LetArith

namespace Matching

@[simp] theorem operator?_primary (m : Matching) (t : Token) : m.operator? .primary t = none := by
  cases h : m.operator? .primary t with
  | none => rfl
  | some op => cases op <;> cases tier_of_operator? h

theorem operator?_of_ne {m : Matching} {tier tier' : Tier} {t : Token} {op : Operator}
    (h : m.operator? tier t = some op) (hne : tier' ≠ tier) : m.operator? tier' t = none := by
  have hb := (Option.filter_eq_some_iff.1 h).1
  have ht : op.tier ≠ tier' := fun he => hne (he.symm.trans (tier_of_operator? h))
  simp [operator?, hb, ht]

/-- A token that is no operator of any tier. -/
def Neutral (m : Matching) (t : Token) : Prop := ∀ tier, m.operator? tier t = none

theorem neutral_of_text {m : Matching} {t : Token} (h : Operator.ofLexeme? t.text = none) :
    m.Neutral t := by
  intro tier
  cases m with
  | byText => simp [operator?, operatorText?, h]
  | byKind => by_cases hk : t.kind.isOperator <;> simp [operator?, operatorText?, hk, h]

theorem neutral_endAt (m : Matching) (place : Position) : m.Neutral (Token.endAt place) :=
  neutral_of_text (show Operator.ofLexeme? "EOF" = none by decide)

end Matching

namespace Tier

def tighter : Tier → Tier
  | additive => multiplicative
  | multiplicative => primary
  | primary => primary

theorem lt_tighter {tier : Tier} (h : tier ≠ primary) : tier < tier.tighter := by
  cases tier with
  | additive => decide
  | multiplicative => decide
  | primary => exact absurd rfl h

theorem le_tighter (a : Tier) : a ≤ a.tighter := by cases a <;> decide

theorem tighter_le {a b : Tier} (h : a < b) : a.tighter ≤ b := by
  revert h
  cases a <;> cases b <;> decide

theorem eq_tighter_or_lt {a b : Tier} (h : a < b) : b = a.tighter ∨ a.tighter < b := by
  revert h
  cases a <;> cases b <;> decide

theorem le_primary (a : Tier) : a ≤ primary := by cases a <;> decide

theorem additive_le (a : Tier) : additive ≤ a := by cases a <;> decide

theorem lt_of_le_of_lt {a b c : Tier} (h : a ≤ b) (h' : b < c) : a < c :=
  Nat.lt_of_le_of_lt h h'

theorem lt_of_lt_of_le {a b c : Tier} (h : a < b) (h' : b ≤ c) : a < c :=
  Nat.lt_of_lt_of_le h h'

theorem not_lt {a b : Tier} : ¬ a < b ↔ b ≤ a := Nat.not_lt

theorem not_le {a b : Tier} : ¬ a ≤ b ↔ b < a := Nat.not_le

theorem le_antisymm {a b : Tier} (h : a ≤ b) (h' : b ≤ a) : a = b := by
  revert h h'
  cases a <;> cases b <;> decide

theorem lt_of_le_of_ne {a b : Tier} (h : a ≤ b) (hne : b ≠ a) : a < b := by
  revert h hne
  cases a <;> cases b <;> decide

theorem ne_of_lt {a b : Tier} (h : a < b) : b ≠ a := by
  rintro rfl
  exact Nat.lt_irrefl _ h

theorem ne_primary_of_lt {a b : Tier} (h : a < b) : a ≠ primary := by
  rintro rfl
  revert h
  cases b <;> decide

end Tier

namespace Expr

/-- `Derives m tier room w next e`: the tokens `w`, with `next` after them, are an operand or a
chain of the tier, with `room` groups or fewer inside each other, and they mean `e`.  A chain
may still go on with `next` if that is an operator of its own tier. -/
inductive Derives (m : Matching) : Tier → Nat → List Token → Token → Expr → Prop where
  | name {room : Nat} {t next : Token} (kind : t.kind = .identifier) :
      Derives m .primary room [t] next (identifier t.text)
  | number {room : Nat} {t next : Token} {x : Binary64} (kind : t.kind = .number)
      (value : Binary64.finiteOfText? t.text = some x) :
      Derives m .primary room [t] next (number x)
  | group {room : Nat} {o c next : Token} {w : List Token} {e : Expr}
      (opening : o.kind = .openParen) (inside : Derives m .additive room w c e)
      (ends : m.operator? .additive c = none) (closing : c.kind = .closeParen) :
      Derives m .primary (room + 1) (o :: (w ++ [c])) next e
  | one {tier : Tier} {room : Nat} {w : List Token} {next : Token} {e : Expr}
      (operand : Derives m tier.tighter room w next e)
      (ends : m.operator? tier.tighter next = none) :
      Derives m tier room w next e
  | more {tier : Tier} {room : Nat} {w v : List Token} {t next : Token} {op : Operator}
      {left right : Expr} (before : Derives m tier room w t left)
      (operator : m.operator? tier t = some op)
      (last : Derives m tier.tighter room v next right)
      (ends : m.operator? tier.tighter next = none) :
      Derives m tier room (w ++ t :: v) next (binary left op right)

/-- A chain of the tier that ends before `next`. -/
def Whole (m : Matching) (tier : Tier) (room : Nat) (w : List Token) (next : Token) (e : Expr) :
    Prop :=
  Derives m tier room w next e ∧ m.operator? tier next = none

namespace Derives

variable {m : Matching} {tier tier' : Tier} {room room' : Nat} {w : List Token}
  {next next' : Token} {e : Expr}

theorem ne_nil (h : Derives m tier room w next e) : w ≠ [] := by
  induction h with
  | name _ => simp
  | number _ _ => simp
  | group _ _ _ _ _ => simp
  | one _ _ ih => exact ih
  | more _ _ _ _ _ _ => simp

/-- What begins an expression announces no declaration. -/
theorem head_kind {t : Token} {ts : List Token} (h : Derives m tier room (t :: ts) next e) :
    t.kind = .identifier ∨ t.kind = .number ∨ t.kind = .openParen := by
  generalize hw : t :: ts = w at h
  induction h generalizing ts with
  | name kind =>
    cases hw
    exact Or.inl kind
  | number kind _ =>
    cases hw
    exact Or.inr (Or.inl kind)
  | group opening _ _ _ _ =>
    cases hw
    exact Or.inr (Or.inr opening)
  | one _ _ ih => exact ih hw
  | more before _ _ _ ih _ =>
    obtain ⟨u, us, hus⟩ := List.exists_cons_of_ne_nil before.ne_nil
    rw [hus] at hw
    cases hw
    exact ih hus.symm

/-- Only the operators among the tokens that may follow are told apart. -/
theorem of_neutral (h : Derives m tier room w next e) (hn : m.Neutral next') :
    Derives m tier room w next' e := by
  induction h with
  | name kind => exact .name kind
  | number kind value => exact .number kind value
  | group opening inside ends closing _ => exact .group opening inside ends closing
  | one _ _ ih => exact .one ih (hn _)
  | more before operator _ _ _ ih => exact .more before operator ih (hn _)

theorem mono (h : Derives m tier room w next e) (hr : room ≤ room') :
    Derives m tier room' w next e := by
  induction h generalizing room' with
  | name kind => exact .name kind
  | number kind value => exact .number kind value
  | @group room o c next w e opening _ ends closing ih =>
    obtain ⟨k, rfl⟩ : ∃ k, room' = k + 1 := ⟨room' - 1, by omega⟩
    exact .group opening (ih (by omega)) ends closing
  | one _ ends ih => exact .one (ih hr) ends
  | more _ operator _ ends ih₁ ih₂ => exact .more (ih₁ hr) operator (ih₂ hr) ends

theorem operator?_of_lt (h : Derives m tier room w next e) (hlt : tier < tier') :
    m.operator? tier' next = none := by
  induction h with
  | name _ => exact absurd hlt (Tier.not_lt.2 (Tier.le_primary tier'))
  | number _ _ => exact absurd hlt (Tier.not_lt.2 (Tier.le_primary tier'))
  | group _ _ _ _ _ => exact absurd hlt (Tier.not_lt.2 (Tier.le_primary tier'))
  | one _ ends ih =>
    rcases Tier.eq_tighter_or_lt hlt with rfl | hlt
    · exact ends
    · exact ih hlt
  | more _ _ _ ends _ ih =>
    rcases Tier.eq_tighter_or_lt hlt with rfl | hlt
    · exact ends
    · exact ih hlt

/-- A tight chain is a loose one if it is not followed by an operator of a tier between. -/
theorem loosen (h : Derives m tier room w next e) (hle : tier' ≤ tier)
    (hn : ∀ between, tier' < between → m.operator? between next = none) :
    Derives m tier' room w next e := by
  cases tier' with
  | primary =>
    cases tier with
    | primary => exact h
    | multiplicative => exact absurd hle (by decide)
    | additive => exact absurd hle (by decide)
  | multiplicative =>
    cases tier with
    | primary => exact .one h (hn .primary (by decide))
    | multiplicative => exact h
    | additive => exact absurd hle (by decide)
  | additive =>
    cases tier with
    | primary => exact .one (.one h (hn .primary (by decide))) (hn .multiplicative (by decide))
    | multiplicative => exact .one h (hn .multiplicative (by decide))
    | additive => exact h

end Derives

theorem Whole.neutral {m : Matching} {room : Nat} {w : List Token} {next : Token} {e : Expr}
    (h : Whole m .additive room w next e) : m.Neutral next := by
  intro tier
  by_cases htier : tier = .additive
  · rw [htier, h.2]
  · exact h.1.operator?_of_lt (Tier.lt_of_le_of_ne (Tier.additive_le tier) htier)

end Expr

namespace Statement

/-- `Derives m room w next s`: the tokens `w`, with `next` after them, are the statement `s`. -/
inductive Derives (m : Matching) (room : Nat) : List Token → Token → Statement → Prop where
  | bare {k n s next : Token} (keyword : k.kind = .letKeyword) (name : n.kind = .identifier)
      (semicolon : s.kind = .semicolon) :
      Derives m room [k, n, s] next (declaration ⟨false, n.text, none⟩)
  | valued {k n q s next : Token} {w : List Token} {e : Expr}
      (keyword : k.kind = .letKeyword ∨ k.kind = .constKeyword) (name : n.kind = .identifier)
      (equals : q.kind = .equals) (value : Expr.Whole m .additive room w s e)
      (semicolon : s.kind = .semicolon) :
      Derives m room (k :: n :: q :: (w ++ [s])) next
        (declaration ⟨k.kind == .constKeyword, n.text, some e⟩)
  | expression {w : List Token} {next : Token} {e : Expr}
      (value : Expr.Whole m .additive room w next e) :
      Derives m room w next (expression e)

namespace Derives

variable {m : Matching} {room : Nat} {w : List Token} {next next' : Token} {s : Statement}

theorem ne_nil (h : Derives m room w next s) : w ≠ [] := by
  cases h with
  | bare _ _ _ => simp
  | valued _ _ _ _ _ => simp
  | expression value => exact value.1.ne_nil

theorem of_neutral (h : Derives m room w next s) (hn : m.Neutral next') :
    Derives m room w next' s := by
  cases h with
  | bare keyword name semicolon => exact .bare keyword name semicolon
  | valued keyword name equals value semicolon => exact .valued keyword name equals value semicolon
  | expression value => exact .expression ⟨value.1.of_neutral hn, hn _⟩

end Derives

end Statement

namespace Program

/-- `Derives m room w stop ss`: the tokens `w`, with `stop` after them, are the statements `ss`
one after the other, with nothing between them. -/
inductive Derives (m : Matching) (room : Nat) : List Token → Token → List Statement → Prop where
  | nil {stop : Token} : Derives m room [] stop []
  | cons {w v : List Token} {stop : Token} {s : Statement} {ss : List Statement}
      (first : Statement.Derives m room w (v.headD stop) s) (others : Derives m room v stop ss) :
      Derives m room (w ++ v) stop (s :: ss)

end Program

end LetArith
