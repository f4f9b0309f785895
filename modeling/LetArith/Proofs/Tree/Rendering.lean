import LetArith.Proofs.Grammar.Derivation
import LetArith.Proofs.Tree.Printed

/-! Trees as tokens.  A rendering of a tree has at least the groups that its operators call for,
and derives it again; the tokens of the text of a tree are a rendering with no other groups. -/

namespace LetArith

theorem kind_of_spelled {kind : Kind} {s : String} {op : Operator} (h : Lexeme.Spelled (kind, s))
    (hop : Operator.ofLexeme? s = some op) : kind = op.kind := by
  rw [← Operator.lexeme_of_ofLexeme? hop] at h
  obtain ⟨c, hchars, hc⟩ := op.toList_lexeme
  have hmark := eq_of_ofMark? hc
  have hsame : ∀ d, op.lexeme = String.ofList [d] → Kind.ofMark? d = some kind → kind = op.kind := by
    intro d hd hkind
    rw [hd, String.toList_ofList] at hchars
    cases hchars
    exact Option.some.inj (hkind.symm.trans hc)
  cases kind with
  | endOfInput => exact h.elim
  -- words and numbers begin with characters that are no marks
  | number =>
    obtain ⟨d, ds, hds, hd⟩ := head_of_isNumeral h
    rw [hchars] at hds
    cases hds
    rw [hmark.2.1] at hd
    cases hd
  | identifier =>
    obtain ⟨⟨d, ds, hds, hd, _⟩, _⟩ := h
    rw [hchars] at hds
    cases hds
    rw [hmark.1] at hd
    cases hd
  | letKeyword =>
    replace h : op.lexeme = "let" := h
    revert h
    cases op <;> decide
  | constKeyword =>
    replace h : op.lexeme = "const" := h
    revert h
    cases op <;> decide
  | _ =>
    obtain ⟨d, hd, hkind⟩ := h
    exact hsame d hd hkind

namespace Matching

variable {m : Matching} {t : Token}

theorem operator?_of_lexeme {op : Operator} (h : t.lexeme = (op.kind, op.lexeme)) :
    m.operator? op.tier t = some op := by
  have hkind : t.kind = op.kind := congrArg Prod.fst h
  have htext : t.text = op.lexeme := congrArg Prod.snd h
  cases m with
  | byText => simp [operator?, operatorText?, htext]
  | byKind => simp [operator?, operatorText?, htext, hkind, op.isOperator_kind]

theorem neutral_of_spelled (h : t.lexeme.Spelled) (hk : t.kind.isOperator = false) :
    m.Neutral t := by
  apply neutral_of_text
  cases hop : Operator.ofLexeme? t.text with
  | none => rfl
  | some op =>
    rw [kind_of_spelled h hop, op.isOperator_kind] at hk
    cases hk

theorem neutral_of_semicolon (h : t.lexeme = (.semicolon, ";")) : m.Neutral t := by
  have htext : t.text = ";" := congrArg Prod.snd h
  exact neutral_of_text (by rw [htext]; decide)

end Matching

/-- `Enclosed needed w w'`: the tokens `w'` are `w`, in parentheses if they are needed. -/
inductive Enclosed : Bool → List Token → List Token → Prop where
  | bare {w : List Token} : Enclosed false w w
  | group {o c : Token} {w : List Token} (opening : o.lexeme = (.openParen, "("))
      (closing : c.lexeme = (.closeParen, ")")) : Enclosed true w (o :: (w ++ [c]))

namespace Expr

/-- `Renders tier depth w e`: the tokens `w` are the tree `e` where one of this tier or a tighter
one is called for.  Every group in them is counted, wanted or not: `depth` of them stand inside
each other. -/
inductive Renders : Tier → Nat → List Token → Expr → Prop where
  | name {tier : Tier} {t : Token} (kind : t.kind = .identifier) :
      Renders tier 0 [t] (identifier t.text)
  | number {tier : Tier} {t : Token} {x : Binary64} (kind : t.kind = .number)
      (value : Binary64.finiteOfText? t.text = some x) : Renders tier 0 [t] (number x)
  | binary {tier : Tier} {i j : Nat} {u v : List Token} {t : Token} {op : Operator}
      {left right : Expr} (fits : tier ≤ op.tier) (before : Renders op.tier i u left)
      (operator : t.lexeme = (op.kind, op.lexeme)) (after : Renders op.tier.tighter j v right) :
      Renders tier (max i j) (u ++ t :: v) (binary left op right)
  | group {tier : Tier} {depth : Nat} {o c : Token} {w : List Token} {e : Expr}
      (opening : o.lexeme = (.openParen, "(")) (inside : Renders .additive depth w e)
      (closing : c.lexeme = (.closeParen, ")")) : Renders tier (depth + 1) (o :: (w ++ [c])) e

/-- A rendering means its tree where no operator of a tighter tier follows. -/
theorem Renders.derives {m : Matching} {tier : Tier} {depth room : Nat} {w : List Token}
    {next : Token} {e : Expr} (h : Renders tier depth w e) (hroom : depth ≤ room)
    (hnext : ∀ between, tier < between → m.operator? between next = none) :
    Derives m tier room w next e := by
  induction h generalizing room next with
  | @name tier t kind => exact (Derives.name kind).loosen tier.le_primary hnext
  | @number tier t x kind value => exact (Derives.number kind value).loosen tier.le_primary hnext
  | @binary tier i j u v t op l r fits before operator after ihl ihr =>
    have hop := Matching.operator?_of_lexeme (m := m) operator
    have htighter := Tier.lt_tighter (Tier.ne_primary_of_lt op.tier_lt_primary)
    have hends : ∀ between, op.tier < between → m.operator? between next = none :=
      fun between hlt => hnext between (Tier.lt_of_le_of_lt fits hlt)
    -- the operator ends the chain on its left, as it belongs to no tighter tier
    have hl : Derives m op.tier room u t l :=
      ihl (by omega) (fun between hlt => Matching.operator?_of_ne hop (Tier.ne_of_lt hlt))
    have hr : Derives m op.tier.tighter room v next r :=
      ihr (by omega) (fun between hlt => hends between (Nat.lt_trans htighter hlt))
    exact (Derives.more hl hop hr (hends _ htighter)).loosen fits hnext
  | @group tier depth o c w e opening inside closing ih =>
    have hkind : c.kind = .closeParen := congrArg Prod.fst closing
    have htext : c.text = ")" := congrArg Prod.snd closing
    have hneutral : m.Neutral c := Matching.neutral_of_text (by rw [htext]; decide)
    obtain ⟨k, rfl⟩ : ∃ k, room = k + 1 := ⟨room - 1, by omega⟩
    have hin : Derives m .additive k w c e := ih (by omega) (fun between _ => hneutral between)
    have hopen : o.kind = .openParen := congrArg Prod.fst opening
    have hgroup : Derives m .primary (k + 1) (o :: (w ++ [c])) next e :=
      .group hopen hin (hneutral _) hkind
    exact hgroup.loosen tier.le_primary hnext

end Expr

namespace Piece

def lexemes (ps : List Piece) : List Lexeme := ps.filterMap lexeme?

@[simp] theorem lexemes_nil : lexemes [] = [] := rfl
@[simp] theorem lexemes_append (ps qs : List Piece) :
    lexemes (ps ++ qs) = lexemes ps ++ lexemes qs := List.filterMap_append

@[simp] theorem lexemes_space (ps : List Piece) : lexemes (space :: ps) = lexemes ps := rfl
@[simp] theorem lexemes_newline (ps : List Piece) : lexemes (newline :: ps) = lexemes ps := rfl
@[simp] theorem lexemes_opening (ps : List Piece) :
    lexemes (opening :: ps) = (.openParen, "(") :: lexemes ps := rfl
@[simp] theorem lexemes_closing (ps : List Piece) :
    lexemes (closing :: ps) = (.closeParen, ")") :: lexemes ps := rfl
@[simp] theorem lexemes_equals (ps : List Piece) :
    lexemes (equals :: ps) = (.equals, "=") :: lexemes ps := rfl
@[simp] theorem lexemes_semicolon (ps : List Piece) :
    lexemes (semicolon :: ps) = (.semicolon, ";") :: lexemes ps := rfl

@[simp] theorem lexemes_operator (op : Operator) (ps : List Piece) :
    lexemes (operator op :: ps) = (op.kind, op.lexeme) :: lexemes ps := by cases op <;> rfl

theorem lexemes_word (s : String) (ps : List Piece) :
    lexemes (word s :: ps) = (Kind.ofWord s, s) :: lexemes ps := by
  simp [lexemes, lexeme?, kind?, word, text]

theorem lexemes_name {s : String} (h : IsName s) (ps : List Piece) :
    lexemes (word s :: ps) = (.identifier, s) :: lexemes ps := by
  rw [lexemes_word]
  simp [Kind.ofWord, Kind.reserved?, h.2.1, h.2.2]

@[simp] theorem lexemes_numeral (s : String) (ps : List Piece) :
    lexemes (numeral s :: ps) = (.number, s) :: lexemes ps := by
  simp [lexemes, lexeme?, kind?, numeral, text]

theorem exists_enclosed {needed : Bool} {ps : List Piece} {w' : List Token}
    (h : w'.map Token.lexeme = lexemes (grouped needed ps)) :
    ∃ w, Enclosed needed w w' ∧ w.map Token.lexeme = lexemes ps := by
  cases needed with
  | false => exact ⟨w', .bare, h⟩
  | true =>
    have hlexemes : lexemes (grouped true ps) =
        (.openParen, "(") :: (lexemes ps ++ [(.closeParen, ")")]) := by simp [grouped]
    rw [hlexemes] at h
    obtain ⟨o, v, rfl, hopen, hv⟩ := List.map_eq_cons_iff.1 h
    obtain ⟨w, cs, rfl, hw, hcs⟩ := List.map_eq_append_iff.1 hv
    obtain ⟨c, rfl, hclose⟩ := List.map_eq_singleton_iff.1 hcs
    exact ⟨w, .group hopen hclose, hw⟩

end Piece

namespace Expr

/-- What a tree is rendered by is still a rendering of it in the parentheses it may need. -/
theorem renders_of_enclosed {e : Expr} {needed : Bool} {tier : Tier} {depth : Nat}
    {w w' : List Token} (h : Enclosed needed w w')
    (hbare : ∀ tier, tier ≤ e.tier → Renders tier depth w e)
    (htier : needed = false → tier ≤ e.tier) : Renders tier (deepened needed depth) w' e := by
  cases h with
  | bare => exact hbare tier (htier rfl)
  | group opening closing => exact .group opening (hbare .additive e.tier.additive_le) closing

theorem renders_binary {tier : Tier} {i j : Nat} {u u' v v' : List Token} {t : Token}
    {op : Operator} {l r : Expr} (fits : tier ≤ op.tier)
    (hu : Enclosed (l.tier < op.tier) u u') (hl : ∀ tier, tier ≤ l.tier → Renders tier i u l)
    (operator : t.lexeme = (op.kind, op.lexeme))
    (hv : Enclosed (r.tier ≤ op.tier) v v') (hr : ∀ tier, tier ≤ r.tier → Renders tier j v r) :
    Renders tier (max (deepened (l.tier < op.tier) i) (deepened (r.tier ≤ op.tier) j))
      (u' ++ t :: v') (binary l op r) := by
  have hleft : Renders op.tier (deepened (l.tier < op.tier) i) u' l :=
    renders_of_enclosed hu hl (fun hneeded => Tier.not_lt.1 (of_decide_eq_false hneeded))
  have hright : Renders op.tier.tighter (deepened (r.tier ≤ op.tier) j) v' r :=
    renders_of_enclosed hv hr
      (fun hneeded => Tier.tighter_le (Tier.not_le.1 (of_decide_eq_false hneeded)))
  exact .binary fits hleft operator hright

/-- The tokens of the text of a tree are a rendering of it. -/
theorem renders_of_lexemes {e : Expr} (h : e.Legible) {tier : Tier} {w : List Token}
    (htier : tier ≤ e.tier) (hw : w.map Token.lexeme = Piece.lexemes e.pieces) :
    Renders tier e.nesting w e := by
  induction e generalizing tier w with
  | binary l op r ihl ihr =>
    have hlexemes : Piece.lexemes (pieces (binary l op r)) =
        Piece.lexemes (Piece.grouped (l.tier < op.tier) l.pieces) ++ (op.kind, op.lexeme) ::
          Piece.lexemes (Piece.grouped (r.tier ≤ op.tier) r.pieces) := by
      simp [pieces]
    rw [hlexemes] at hw
    obtain ⟨u', v', rfl, hu', hv'⟩ := List.map_eq_append_iff.1 hw
    obtain ⟨t, v', rfl, ht, hv'⟩ := List.map_eq_cons_iff.1 hv'
    obtain ⟨u, hleft, hu⟩ := Piece.exists_enclosed hu'
    obtain ⟨v, hright, hv⟩ := Piece.exists_enclosed hv'
    exact renders_binary htier hleft (fun _ htier => ihl h.left htier hu) ht hright
      (fun _ htier => ihr h.right htier hv)
  | identifier s =>
    rw [pieces, Piece.lexemes_name (h.names s (by simp [names]))] at hw
    obtain ⟨t, rfl, ht⟩ := List.map_eq_singleton_iff.1 hw
    have hkind : t.kind = .identifier := congrArg Prod.fst ht
    have htext : t.text = s := congrArg Prod.snd ht
    rw [← htext]
    exact .name hkind
  | number x =>
    obtain ⟨rank, rfl⟩ := h.numbers x (by simp [numbers])
    rw [pieces, Piece.lexemes_numeral] at hw
    obtain ⟨t, rfl, ht⟩ := List.map_eq_singleton_iff.1 hw
    have htext : t.text = Binary64.text (.finite false rank) := congrArg Prod.snd ht
    refine .number (congrArg Prod.fst ht) ?_
    rw [htext]
    exact Binary64.finiteOfText?_text rank

end Expr

theorem Expr.whole_of_lexemes {m : Matching} {e : Expr} {room : Nat} {w : List Token} {next : Token}
    (h : e.Legible) (hroom : e.nesting ≤ room)
    (hw : w.map Token.lexeme = Piece.lexemes e.pieces) (hnext : m.Neutral next) :
    Whole m .additive room w next e := by
  have hrenders := renders_of_lexemes h e.tier.additive_le hw
  exact ⟨hrenders.derives hroom (fun between _ => hnext between), hnext _⟩

namespace Statement

variable {m : Matching} {room : Nat} {w : List Token} {next : Token} {s : Statement}

theorem ofWord_keyword (d : Declaration) :
    Kind.ofWord d.keyword = if d.constant then .constKeyword else .letKeyword := by
  unfold Declaration.keyword
  cases d.constant <;> rfl

theorem lexemes_declaration {d : Declaration} (h : IsName d.name) :
    Piece.lexemes (declaration d).pieces =
      (if d.constant then Kind.constKeyword else Kind.letKeyword, d.keyword) ::
        (.identifier, d.name) :: match d.value with
        | some e => (.equals, "=") :: (Piece.lexemes e.pieces ++ [(.semicolon, ";")])
        | none => [(.semicolon, ";")] := by
  rw [pieces, Piece.lexemes_word, Piece.lexemes_space, Piece.lexemes_name h, ofWord_keyword]
  cases d.value <;> simp

theorem derives_bare {name : String} (hname : IsName name)
    (hw : w.map Token.lexeme = Piece.lexemes (declaration ⟨false, name, none⟩).pieces) :
    Derives m room w next (declaration ⟨false, name, none⟩) := by
  rw [lexemes_declaration hname] at hw
  obtain ⟨k, v, rfl, hk, hv⟩ := List.map_eq_cons_iff.1 hw
  obtain ⟨n, u, rfl, hn, hu⟩ := List.map_eq_cons_iff.1 hv
  obtain ⟨s, rfl, hs⟩ := List.map_eq_singleton_iff.1 hu
  have htext : n.text = name := congrArg Prod.snd hn
  rw [← htext]
  exact .bare (congrArg Prod.fst hk) (congrArg Prod.fst hn) (congrArg Prod.fst hs)

theorem derives_keyword {constant : Bool} {k n q s : Token} {e : Expr}
    (hk : k.kind = if constant then .constKeyword else .letKeyword) (hn : n.kind = .identifier)
    (hq : q.kind = .equals) (value : Expr.Whole m .additive room w s e)
    (hs : s.kind = .semicolon) :
    Derives m room (k :: n :: q :: (w ++ [s])) next
      (declaration ⟨constant, n.text, some e⟩) := by
  have hkeyword : k.kind = .letKeyword ∨ k.kind = .constKeyword := by
    cases constant with
    | false => exact Or.inl hk
    | true => exact Or.inr hk
  have hconstant : (k.kind == .constKeyword) = constant := by
    rw [hk]
    cases constant <;> rfl
  rw [← hconstant]
  exact .valued hkeyword hn hq value hs

theorem derives_valued {constant : Bool} {name : String} {e : Expr} (hname : IsName name)
    (he : e.Legible) (hroom : e.nesting ≤ room)
    (hw : w.map Token.lexeme = Piece.lexemes (declaration ⟨constant, name, some e⟩).pieces) :
    Derives m room w next (declaration ⟨constant, name, some e⟩) := by
  rw [lexemes_declaration hname] at hw
  obtain ⟨k, v, rfl, hk, hv⟩ := List.map_eq_cons_iff.1 hw
  obtain ⟨n, u, rfl, hn, hu⟩ := List.map_eq_cons_iff.1 hv
  obtain ⟨q, u, rfl, hq, hu⟩ := List.map_eq_cons_iff.1 hu
  obtain ⟨x, y, rfl, hx, hy⟩ := List.map_eq_append_iff.1 hu
  obtain ⟨s, rfl, hs⟩ := List.map_eq_singleton_iff.1 hy
  have htext : n.text = name := congrArg Prod.snd hn
  have hvalue := Expr.whole_of_lexemes he hroom hx (Matching.neutral_of_semicolon (m := m) hs)
  rw [← htext]
  exact derives_keyword (congrArg Prod.fst hk) (congrArg Prod.fst hn) (congrArg Prod.fst hq) hvalue
    (congrArg Prod.fst hs)

/-- The tokens of the text of a statement derive it where no operator follows. -/
theorem derives_of_lexemes (h : s.Legible) (hroom : s.nesting ≤ room)
    (hw : w.map Token.lexeme = Piece.lexemes s.pieces) (hnext : m.Neutral next) :
    Derives m room w next s := by
  cases s with
  | expression e => exact .expression (Expr.whole_of_lexemes h.of_expression hroom hw hnext)
  | declaration d =>
    have hname : IsName d.name := h.names d.name (by simp [names])
    obtain ⟨constant, name, value⟩ := d
    cases value with
    | some e => exact derives_valued hname h.of_value hroom hw
    | none =>
      cases constant with
      | false => exact derives_bare hname hw
      | true => exact absurd rfl (h.values _ rfl rfl)

theorem Derives.isOperator_head {t : Token} {ts : List Token} (h : Derives m room (t :: ts) next s) :
    t.kind.isOperator = false := by
  generalize hw : t :: ts = w at h
  cases h with
  | bare keyword _ _ =>
    cases hw
    rw [keyword]
    rfl
  | valued keyword _ _ _ _ =>
    cases hw
    rcases keyword with hk | hk <;> rw [hk] <;> rfl
  | expression value =>
    rw [← hw] at value
    rcases value.1.head_kind with hk | hk | hk <;> rw [hk] <;> rfl

end Statement

namespace Program

variable {m : Matching} {room : Nat} {stop : Token}

/-- No operator follows a statement of a text, as none begins the next one. -/
theorem neutral_headD {w : List Token} {ss : List Statement} (h : Derives m room w stop ss)
    (hw : ∀ t ∈ w, t.lexeme.Spelled) (hstop : m.Neutral stop) : m.Neutral (w.headD stop) := by
  cases h with
  | nil => exact hstop
  | @cons u v s ss _ first others =>
    obtain ⟨t, ts, rfl⟩ := List.exists_cons_of_ne_nil first.ne_nil
    exact Matching.neutral_of_spelled (hw t (by simp)) first.isOperator_head

theorem lexemes_bodyPieces (ss : List Statement) :
    Piece.lexemes (bodyPieces ss) = ss.flatMap (fun s => Piece.lexemes s.pieces) := by
  induction ss with
  | nil => rfl
  | cons s ss ih =>
    cases ss with
    | nil => simp [bodyPieces]
    | cons t ss => simp [bodyPieces, ih]

theorem derives_of_lexemes {ss : List Statement} {w : List Token}
    (h : ∀ s ∈ ss, s.Legible ∧ s.nesting ≤ room)
    (hw : w.map Token.lexeme = Piece.lexemes (bodyPieces ss))
    (hspelled : ∀ t ∈ w, t.lexeme.Spelled) (hstop : m.Neutral stop) : Derives m room w stop ss := by
  rw [lexemes_bodyPieces] at hw
  induction ss generalizing w with
  | nil =>
    cases List.map_eq_nil_iff.1 hw
    exact .nil
  | cons s ss ih =>
    rw [List.flatMap_cons] at hw
    obtain ⟨u, v, rfl, hu, hv⟩ := List.map_eq_append_iff.1 hw
    have hspelled' : ∀ t ∈ v, t.lexeme.Spelled :=
      fun t ht => hspelled t (List.mem_append_right u ht)
    have hothers := ih (fun t ht => h t (by simp [ht])) hv hspelled'
    have hnext := neutral_headD hothers hspelled' hstop
    obtain ⟨hlegible, hroom⟩ := h s (by simp)
    exact .cons (Statement.derives_of_lexemes hlegible hroom hu hnext) hothers

end Program

end LetArith
