import LetArith.Proofs.Tree.Parentheses

/-! Parentheses beyond those that are called for.  Any part of an expression may stand in
parentheses of its own, the whole of it and its names and numbers too, as often as one likes; it
is read as the same tree as long as the groups are no deeper than the limit. -/

namespace LetArith

namespace Enclosed

variable {needed : Bool} {w w' : List Token}

theorem nested (h : Enclosed needed w w') (hw : Kind.parentheses.Nested (w.map Token.kind)) :
    Kind.parentheses.Nested (w'.map Token.kind) := by
  cases h with
  | bare => exact hw
  | @group o c _ opening closing =>
    have ho : o.kind = .openParen := congrArg Prod.fst opening
    have hc : c.kind = .closeParen := congrArg Prod.fst closing
    have hgroup := Kind.nested_group hw
    rw [← ho, ← hc] at hgroup
    simpa using hgroup

theorem depth_eq (h : Enclosed needed w w') :
    Kind.parentheses.depth (w'.map Token.kind) =
      deepened needed (Kind.parentheses.depth (w.map Token.kind)) := by
  cases h with
  | bare => rfl
  | @group o c _ opening closing =>
    have ho : o.kind = .openParen := congrArg Prod.fst opening
    have hc : c.kind = .closeParen := congrArg Prod.fst closing
    rw [List.map_cons, List.map_append, List.map_singleton, ho, hc, Kind.depth_group]
    rfl

theorem isEnd_of_mem (h : Enclosed needed w w') (hw : ∀ t ∈ w, t.isEnd = false) :
    ∀ t ∈ w', t.isEnd = false := by
  cases h with
  | bare => exact hw
  | @group o c _ opening closing =>
    have ho : o.isEnd = false := Cursor.isEnd_of_kind (congrArg Prod.fst opening) (by decide)
    have hc : c.isEnd = false := Cursor.isEnd_of_kind (congrArg Prod.fst closing) (by decide)
    intro t ht
    rcases List.mem_cons.1 ht with rfl | ht
    · exact ho
    · rcases List.mem_append.1 ht with ht | ht
      · exact hw t ht
      · rw [List.mem_singleton.1 ht]
        exact hc

end Enclosed

namespace Expr

/-- `Written w e`: the tokens `w` are the tree `e` with the parentheses its text has, and around
any part of it any number of others. -/
inductive Written : List Token → Expr → Prop where
  | name {t : Token} (kind : t.kind = .identifier) : Written [t] (identifier t.text)
  | number {t : Token} {x : Binary64} (kind : t.kind = .number)
      (value : Binary64.finiteOfText? t.text = some x) : Written [t] (number x)
  | binary {u u' v v' : List Token} {t : Token} {op : Operator} {left right : Expr}
      (before : Written u left) (onLeft : Enclosed (left.tier < op.tier) u u')
      (operator : t.lexeme = (op.kind, op.lexeme))
      (after : Written v right) (onRight : Enclosed (right.tier ≤ op.tier) v v') :
      Written (u' ++ t :: v') (binary left op right)
  | wrapped {w w' : List Token} {e : Expr} (inside : Written w e) (around : Enclosed true w w') :
      Written w' e

namespace Written

variable {m : Matching} {w : List Token} {e : Expr}

theorem isEnd_of_mem (h : Written w e) : ∀ t ∈ w, t.isEnd = false := by
  induction h with
  | name kind | number kind _ =>
    intro t ht
    rw [List.mem_singleton.1 ht]
    exact Cursor.isEnd_of_kind kind (by decide)
  | @binary u u' v v' t op _ _ _ onLeft operator _ onRight ihl ihr =>
    have hop : t.isEnd = false :=
      Cursor.isEnd_of_kind (congrArg Prod.fst operator) (by cases op <;> decide)
    intro s hs
    rcases List.mem_append.1 hs with hs | hs
    · exact onLeft.isEnd_of_mem ihl s hs
    · rcases List.mem_cons.1 hs with rfl | hs
      · exact hop
      · exact onRight.isEnd_of_mem ihr s hs
  | wrapped _ around ih => exact around.isEnd_of_mem ih

theorem renders (h : Written w e) :
    Kind.parentheses.Nested (w.map Token.kind) ∧
      ∀ tier, tier ≤ e.tier → Renders tier (Kind.parentheses.depth (w.map Token.kind)) w e := by
  induction h with
  | @name t kind =>
    have hmark : Kind.parentheses.marks t.kind = false := by rw [kind]; rfl
    rw [List.map_singleton, Brackets.depth_singleton hmark]
    exact ⟨Brackets.nested_singleton hmark, fun _ _ => .name kind⟩
  | @number t x kind value =>
    have hmark : Kind.parentheses.marks t.kind = false := by rw [kind]; rfl
    rw [List.map_singleton, Brackets.depth_singleton hmark]
    exact ⟨Brackets.nested_singleton hmark, fun _ _ => .number kind value⟩
  | @binary u u' v v' t op l r _ onLeft operator _ onRight ihl ihr =>
    have hkind : t.kind = op.kind := congrArg Prod.fst operator
    have hmark : Kind.parentheses.marks t.kind = false := by rw [hkind, Kind.marks_operator]
    have hleft := onLeft.nested ihl.1
    have hright := onRight.nested ihr.1
    rw [List.map_append, List.map_cons, Brackets.depth_append hleft.balanced,
      Brackets.depth_cons hmark, onLeft.depth_eq, onRight.depth_eq]
    exact ⟨hleft.append (hright.cons hmark),
      fun _ fits => renders_binary fits onLeft ihl.2 operator onRight ihr.2⟩
  | wrapped _ around ih =>
    rw [around.depth_eq]
    exact ⟨around.nested ih.1, fun tier htier => renders_of_enclosed around ih.2 (fun _ => htier)⟩

theorem whole {room : Nat} {next : Token} (h : Written w e)
    (hroom : Kind.parentheses.depth (w.map Token.kind) ≤ room) (hnext : m.Neutral next) :
    Whole m .additive room w next e :=
  ⟨(h.renders.2 .additive e.tier.additive_le).derives hroom (fun between _ => hnext between),
    hnext _⟩

end Written

end Expr

namespace Program

variable {config : Config} {w : List Token} {e : Expr}

theorem ofTokens_of_derives {s : Statement} (hopen : ∀ t ∈ w, t.isEnd = false)
    (h : ∀ next, config.matching.Neutral next →
      Statement.Derives config.matching config.maxDepth w next s) :
    ofTokens config w = .ok ⟨[s]⟩ := by
  rw [ofTokens_eq_ok_iff_cursor, Cursor.ahead_ofTokens_of_open hopen,
    Cursor.stop_ofTokens_of_open hopen]
  have hone : Derives config.matching config.maxDepth (w ++ []) (Cursor.closing w) [s] :=
    .cons (h _ (Matching.neutral_endAt _ _)) .nil
  rwa [List.append_nil] at hone

/-- A tree is read back whatever parentheses it is written with, as a statement and as the value of
a declaration, as long as there is room for the groups. -/
theorem ofTokens_written (h : e.Written w)
    (hdepth : Kind.parentheses.depth (w.map Token.kind) ≤ config.maxDepth) :
    ofTokens config w = .ok ⟨[.expression e]⟩ ∧
      ∀ (constant : Bool) (k n q s : Token),
        k.lexeme = (if constant then (.constKeyword, "const") else (.letKeyword, "let")) →
        n.kind = .identifier → q.lexeme = (.equals, "=") → s.lexeme = (.semicolon, ";") →
        ofTokens config (k :: n :: q :: (w ++ [s])) =
          .ok ⟨[.declaration ⟨constant, n.text, some e⟩]⟩ := by
  refine ⟨ofTokens_of_derives h.isEnd_of_mem fun next hnext => .expression (h.whole hdepth hnext),
    fun constant k n q s hk hn hq hs => ?_⟩
  have hkeyword : k.kind = if constant then .constKeyword else .letKeyword := by
    have hkind := congrArg Prod.fst hk
    cases constant <;> exact hkind
  have hequals : q.kind = .equals := congrArg Prod.fst hq
  have hsemicolon : s.kind = .semicolon := congrArg Prod.fst hs
  have hvalue := h.whole hdepth (Matching.neutral_of_semicolon (m := config.matching) hs)
  refine ofTokens_of_derives (fun t ht => ?_)
    (fun next _ => Statement.derives_keyword hkeyword hn hequals hvalue hsemicolon)
  simp only [List.mem_cons, List.mem_append, List.not_mem_nil, or_false] at ht
  rcases ht with rfl | rfl | rfl | ht | rfl
  · exact Cursor.isEnd_of_kind hkeyword (by cases constant <;> decide)
  · exact Cursor.isEnd_of_kind hn (by decide)
  · exact Cursor.isEnd_of_kind hequals (by decide)
  · exact h.isEnd_of_mem t ht
  · exact Cursor.isEnd_of_kind hsemicolon (by decide)

def difference : Expr :=
  .binary (.identifier "a") .subtract (.binary (.identifier "b") .add (.number .zero))

def padded : List Token :=
  [⟨.openParen, "(", Span.null⟩, ⟨.openParen, "(", Span.null⟩, ⟨.identifier, "a", Span.null⟩,
    ⟨.closeParen, ")", Span.null⟩, ⟨.dash, "-", Span.null⟩, ⟨.openParen, "(", Span.null⟩,
    ⟨.openParen, "(", Span.null⟩, ⟨.identifier, "b", Span.null⟩, ⟨.plus, "+", Span.null⟩,
    ⟨.number, "0.0", Span.null⟩, ⟨.closeParen, ")", Span.null⟩, ⟨.closeParen, ")", Span.null⟩,
    ⟨.closeParen, ")", Span.null⟩]

theorem written_padded : difference.Written padded := by
  have ha : Expr.Written [padded[2]] (.identifier "a") := .name rfl
  have hb : Expr.Written [padded[7]] (.identifier "b") := .name rfl
  have hzero : Expr.Written [padded[9]] (.number .zero) := .number rfl (by decide +kernel)
  have hsum : Expr.Written ([padded[7]] ++ padded[8] :: [padded[9]])
      (.binary (.identifier "b") .add (.number .zero)) := .binary hb .bare rfl hzero .bare
  have hleft := ha.wrapped (.group (o := padded[1]) (c := padded[3]) rfl rfl)
  have hright := hsum.wrapped (.group (o := padded[6]) (c := padded[10]) rfl rfl)
  have hdifference : difference.Written
      ([padded[1], padded[2], padded[3]] ++ padded[4] :: (padded.take 12).drop 5) :=
    .binary hleft .bare rfl hright (.group (o := padded[5]) (c := padded[11]) rfl rfl)
  exact hdifference.wrapped (.group (o := padded[0]) (c := padded[12]) rfl rfl)

/-- Of its four pairs of parentheses three stand inside each other, and only one is needed. -/
theorem ofTokens_written_padded :
    ofTokens { ({} : Config) with maxDepth := 3 } padded = .ok ⟨[.expression difference]⟩ ∧
      ofTokens { ({} : Config) with maxDepth := 3 }
          (⟨.letKeyword, "let", Span.null⟩ :: ⟨.identifier, "x", Span.null⟩ ::
            ⟨.equals, "=", Span.null⟩ :: (padded ++ [⟨.semicolon, ";", Span.null⟩])) =
        .ok ⟨[.declaration ⟨false, "x", some difference⟩]⟩ := by
  have h := @ofTokens_written { ({} : Config) with maxDepth := 3 } _ _ written_padded
    (by decide +kernel)
  exact ⟨h.1, h.2 false _ _ _ _ rfl rfl rfl rfl⟩

end Program

end LetArith
