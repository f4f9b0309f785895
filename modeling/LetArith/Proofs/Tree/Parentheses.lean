import LetArith.Proofs.Brackets
import LetArith.Proofs.Grammar.Invariance
import LetArith.Proofs.Source.Layout
import LetArith.Proofs.Tree.RoundTrip
import Mathlib.Data.List.Forall2

/-! Parentheses that a text can do without.  The text of a program has the tokens of any text it
was read from, but for parentheses: those it has were called for in the other text too, as nothing
else gives the same tree. -/

namespace LetArith

namespace Kind

def parentheses : Brackets Kind := ⟨(· == .openParen), (· == .closeParen)⟩

theorem marks_operator (op : Operator) : parentheses.marks op.kind = false := by cases op <;> rfl

theorem depth_group (ks : List Kind) :
    parentheses.depth (.openParen :: (ks ++ [.closeParen])) = parentheses.depth ks + 1 :=
  Brackets.depth_group rfl rfl rfl

theorem nested_group {ks : List Kind} (h : parentheses.Nested ks) :
    parentheses.Nested (.openParen :: (ks ++ [.closeParen])) :=
  h.group rfl rfl rfl rfl

theorem marks_of_mem_operators {k : Kind} (h : k ∈ operators) : parentheses.marks k = false := by
  revert h
  cases k <;> decide

end Kind

namespace Lexeme

def bare (ls : List Lexeme) : List Lexeme := ls.filter (fun l => !Kind.parentheses.marks l.1)

@[simp] theorem bare_nil : bare [] = [] := rfl
@[simp] theorem bare_append (ls ls' : List Lexeme) : bare (ls ++ ls') = bare ls ++ bare ls' :=
  List.filter_append ls ls'

theorem bare_cons {l : Lexeme} (h : Kind.parentheses.marks l.1 = false) (ls : List Lexeme) :
    bare (l :: ls) = l :: bare ls := List.filter_cons_of_pos (by simp [h])

@[simp] theorem bare_openParen (s : String) (ls : List Lexeme) :
    bare ((.openParen, s) :: ls) = bare ls := rfl

@[simp] theorem bare_closeParen (s : String) (ls : List Lexeme) :
    bare ((.closeParen, s) :: ls) = bare ls := rfl

def openings (ls : List Lexeme) : Nat := (ls.map Prod.fst).count .openParen

@[simp] theorem openings_nil : openings [] = 0 := rfl
@[simp] theorem openings_append (ls ls' : List Lexeme) :
    openings (ls ++ ls') = openings ls + openings ls' := by simp [openings]

@[simp] theorem openings_openParen (s : String) (ls : List Lexeme) :
    openings ((.openParen, s) :: ls) = openings ls + 1 := by simp [openings]

theorem openings_cons {l : Lexeme} (h : l.1 ≠ .openParen) (ls : List Lexeme) :
    openings (l :: ls) = openings ls := List.count_cons_of_ne h

theorem openings_grouped (needed : Bool) (ps : List Piece) :
    openings (Piece.lexemes (Piece.grouped needed ps)) =
      deepened needed (openings (Piece.lexemes ps)) := by
  cases needed with
  | false => rfl
  | true => simp [Piece.grouped, deepened, openings_cons]

theorem openings_word (s : String) : openings (Piece.lexemes [Piece.word s]) = 0 := by
  have hkind : Kind.ofWord s ≠ .openParen := by
    rw [ofWord_eq]
    split
    · decide
    · split <;> decide
  rw [Piece.lexemes_word]
  exact openings_cons hkind []

/-- The same kind and the same text, or two texts of one number. -/
def Alike (l l' : Lexeme) : Prop :=
  l.1 = l'.1 ∧ (l.2 = l'.2 ∨ l.1 = .number ∧
    ∃ x, Binary64.finiteOfText? l.2 = some x ∧ Binary64.finiteOfText? l'.2 = some x)

theorem Alike.refl (l : Lexeme) : l.Alike l := ⟨rfl, Or.inl rfl⟩

theorem bare_grouped (needed : Bool) (ps : List Piece) :
    bare (Piece.lexemes (Piece.grouped needed ps)) = bare (Piece.lexemes ps) := by
  cases needed <;> simp [Piece.grouped]

/-- What one list of lexemes has, another has too, but for some of the parentheses. -/
structure Spares (ls ls' : List Lexeme) : Prop where
  alike : List.Forall₂ Alike (bare ls) (bare ls')
  openings : openings ls' ≤ openings ls

namespace Spares

variable {ls ls' ms ms' : List Lexeme}

theorem refl (ls : List Lexeme) : Spares ls ls :=
  ⟨List.forall₂_same.2 (fun l _ => .refl l), Nat.le_refl _⟩

theorem append (h : Spares ls ls') (h' : Spares ms ms') : Spares (ls ++ ms) (ls' ++ ms') where
  alike := by
    rw [bare_append, bare_append]
    exact List.rel_append h.alike h'.alike
  openings := by
    rw [openings_append, openings_append]
    exact Nat.add_le_add h.openings h'.openings

end Spares
end Lexeme

namespace Token

variable {t : Token}

theorem lexeme_of_keyword (h : t.lexeme.Spelled)
    (hk : t.kind = .letKeyword ∨ t.kind = .constKeyword) :
    t.lexeme = (if t.kind == .constKeyword then .constKeyword else .letKeyword,
      if t.kind == .constKeyword then "const" else "let") := by
  rcases hk with hk | hk <;> rw [lexeme, hk] at h ⊢ <;> exact congrArg _ h

theorem lexeme_mem_marks (h : t.lexeme.Spelled) (hk : t.kind = .equals ∨ t.kind = .semicolon) :
    t.lexeme ∈ Lexeme.marks := by
  rcases hk with hk | hk <;>
  · rw [lexeme, hk] at h ⊢
    obtain ⟨c, htext, hmark⟩ := h
    rw [htext]
    exact (Lexeme.mem_marks_of_ofMark? hmark).1

theorem lexeme_of_equals (h : t.lexeme.Spelled) (hk : t.kind = .equals) :
    t.lexeme = (.equals, "=") := by
  have hmem := lexeme_mem_marks h (Or.inl hk)
  rw [lexeme, hk] at hmem ⊢
  simpa [Lexeme.marks] using hmem

theorem lexeme_of_semicolon (h : t.lexeme.Spelled) (hk : t.kind = .semicolon) :
    t.lexeme = (.semicolon, ";") := by
  have hmem := lexeme_mem_marks h (Or.inr hk)
  rw [lexeme, hk] at hmem ⊢
  simpa [Lexeme.marks] using hmem

end Token

namespace Matching

variable {m : Matching} {tier : Tier} {t : Token} {op : Operator}

/-- Whatever makes a token an operator, its text tells which one. -/
theorem ofLexeme?_of_operator? (h : m.operator? tier t = some op) :
    Operator.ofLexeme? t.text = some op := by
  obtain ⟨s, hs, hop⟩ := Option.bind_eq_some_iff.1 (Option.filter_eq_some_iff.1 h).1
  have htext : s = t.text := by
    cases m with
    | byText => exact (Option.some.inj hs).symm
    | byKind =>
      obtain ⟨_, hsome⟩ := Option.ite_none_right_eq_some.1 hs
      exact (Option.some.inj hsome).symm
  rw [htext] at hop
  exact hop

theorem lexeme_of_operator? (h : m.operator? tier t = some op) (ht : t.lexeme.Spelled) :
    t.lexeme = (op.kind, op.lexeme) := by
  have hop := ofLexeme?_of_operator? h
  rw [Token.lexeme, kind_of_spelled ht hop, Operator.lexeme_of_ofLexeme? hop]

theorem marks_of_operator? (h : m.operator? tier t = some op) (ht : t.Consistent) :
    Kind.parentheses.marks t.kind = false :=
  Kind.marks_of_mem_operators (ht.mem_operators (ofLexeme?_of_operator? h))

end Matching

namespace Expr.Derives

variable {m : Matching} {tier : Tier} {room : Nat} {w : List Token} {next : Token} {e : Expr}

/-- The parentheses of an expression are nested, and as deep as there needs to be room. -/
theorem parentheses (h : Derives m tier room w next e) (hw : ∀ t ∈ w, t.Consistent) :
    Kind.parentheses.Nested (w.map Token.kind) ∧
      Kind.parentheses.depth (w.map Token.kind) ≤ room ∧
      Derives m tier (Kind.parentheses.depth (w.map Token.kind)) w next e := by
  induction h with
  | @name room t next kind =>
    have hmark : Kind.parentheses.marks t.kind = false := by rw [kind]; rfl
    rw [List.map_singleton, Brackets.depth_singleton hmark]
    exact ⟨Brackets.nested_singleton hmark, Nat.zero_le room, .name kind⟩
  | @number room t next x kind value =>
    have hmark : Kind.parentheses.marks t.kind = false := by rw [kind]; rfl
    rw [List.map_singleton, Brackets.depth_singleton hmark]
    exact ⟨Brackets.nested_singleton hmark, Nat.zero_le room, .number kind value⟩
  | @group room o c next w e opening _ ends closing ih =>
    obtain ⟨hnested, hroom, hin⟩ := ih (fun t ht => hw t (by simp [ht]))
    have hkinds : (o :: (w ++ [c])).map Token.kind =
        .openParen :: (w.map Token.kind ++ [.closeParen]) := by simp [opening, closing]
    rw [hkinds, Kind.depth_group]
    exact ⟨Kind.nested_group hnested, Nat.succ_le_succ hroom, .group opening hin ends closing⟩
  | one _ ends ih =>
    obtain ⟨hnested, hroom, hin⟩ := ih hw
    exact ⟨hnested, hroom, .one hin ends⟩
  | @more tier room w v t next op l r _ operator _ ends ihl ihr =>
    obtain ⟨hnested, hroom, hleft⟩ := ihl (fun t ht => hw t (by simp [ht]))
    obtain ⟨hnested', hroom', hright⟩ := ihr (fun t ht => hw t (by simp [ht]))
    have hmark := Matching.marks_of_operator? operator (hw t (by simp))
    rw [List.map_append, List.map_cons, Brackets.depth_append hnested.balanced,
      Brackets.depth_cons hmark]
    refine ⟨hnested.append (hnested'.cons hmark), Nat.max_le.2 ⟨hroom, hroom'⟩, ?_⟩
    exact .more (hleft.mono (Nat.le_max_left _ _)) operator (hright.mono (Nat.le_max_right _ _)) ends

/-- Parentheses are only written where some were read, one pair for each. -/
theorem deepened_openings_le (h : Derives m tier room w next e) :
    deepened (e.tier < tier) (Lexeme.openings (Piece.lexemes e.pieces)) ≤
      Lexeme.openings (w.map Token.lexeme) := by
  induction h with
  | @name room t next kind =>
    rw [pieces, Lexeme.openings_word]
    exact Nat.zero_le _
  | number _ _ => exact Nat.zero_le _
  | @group room o c next w e opening _ _ _ ih =>
    have ho : o.lexeme = (.openParen, o.text) := by rw [Token.lexeme, opening]
    refine Nat.le_trans (deepened_le_succ ih) ?_
    simp [ho]
  | one _ _ ih => exact deepened_le_of_imp ih looser_tighter
  | @more tier room w v t next op l r _ operator _ _ ihl ihr =>
    have htier := Matching.tier_of_operator? operator
    subst htier
    have hright := deepened_le_of_imp ihr looser_right
    have hop : op.kind ≠ .openParen := by cases op <;> decide
    apply deepened_binary
    have htail : Lexeme.openings (v.map Token.lexeme) ≤
        Lexeme.openings ((t :: v).map Token.lexeme) :=
      List.Sublist.count_le _ ((List.sublist_cons_self _ _).map _)
    rw [pieces, Piece.lexemes_append, Piece.lexemes_space, Piece.lexemes_operator,
      Piece.lexemes_space, Lexeme.openings_append, Lexeme.openings_cons hop,
      Lexeme.openings_grouped, Lexeme.openings_grouped, List.map_append, Lexeme.openings_append]
    omega

/-- The other tokens of an expression are those of the text of its tree. -/
theorem bare_alike (h : Derives m tier room w next e) (hw : ∀ t ∈ w, t.lexeme.Spelled) :
    List.Forall₂ Lexeme.Alike (Lexeme.bare (w.map Token.lexeme))
      (Lexeme.bare (Piece.lexemes e.pieces)) := by
  induction h with
  | @name room t next kind =>
    have hname := Lexeme.isName_of_spelled (hw t (by simp)) kind
    have ht : t.lexeme = (.identifier, t.text) := by rw [Token.lexeme, kind]
    rw [pieces, Piece.lexemes_name hname, List.map_singleton, ht]
    exact List.forall₂_same.2 (fun l _ => .refl l)
  | @number room t next x kind value =>
    have hnumeral := Lexeme.isNumeral_of_spelled (hw t (by simp)) kind
    obtain ⟨rank, rfl⟩ := Binary64.eq_of_finiteOfText? hnumeral value
    have ht : t.lexeme = (.number, t.text) := by rw [Token.lexeme, kind]
    rw [pieces, Piece.lexemes_numeral, List.map_singleton, ht]
    refine .cons ⟨rfl, Or.inr ⟨rfl, _, value, Binary64.finiteOfText?_text rank⟩⟩ .nil
  | @group room o c next w e opening _ ends closing ih =>
    have ho : o.lexeme = (.openParen, o.text) := by rw [Token.lexeme, opening]
    have hc : c.lexeme = (.closeParen, c.text) := by rw [Token.lexeme, closing]
    simpa [ho, hc] using ih (fun t ht => hw t (by simp [ht]))
  | one _ _ ih => exact ih hw
  | @more tier room w v t next op l r _ operator _ _ ihl ihr =>
    have hleft := ihl (fun t ht => hw t (by simp [ht]))
    have hright := ihr (fun t ht => hw t (by simp [ht]))
    have ht := Matching.lexeme_of_operator? operator (hw t (by simp))
    have hop := Lexeme.bare_cons (l := (op.kind, op.lexeme)) (Kind.marks_operator op)
    simp only [pieces, List.map_append, List.map_cons, ht, Lexeme.bare_append, hop,
      Piece.lexemes_append, Piece.lexemes_space, Piece.lexemes_operator, Lexeme.bare_grouped]
    exact List.rel_append hleft (.cons (.refl _) hright)

/-- The tokens of an expression are those of the text of its tree, with parentheses to spare. -/
theorem spares (h : Derives m tier room w next e) (hw : ∀ t ∈ w, t.lexeme.Spelled) :
    Lexeme.Spares (w.map Token.lexeme) (Piece.lexemes e.pieces) :=
  ⟨h.bare_alike hw, Nat.le_trans (le_deepened _ _) h.deepened_openings_le⟩

end Expr.Derives

namespace Statement.Derives

variable {m : Matching} {room room' : Nat} {w : List Token} {next : Token} {s : Statement}

theorem mono (h : Derives m room w next s) (hr : room ≤ room') : Derives m room' w next s := by
  cases h with
  | bare keyword name semicolon => exact .bare keyword name semicolon
  | valued keyword name equals value semicolon =>
    exact .valued keyword name equals ⟨value.1.mono hr, value.2⟩ semicolon
  | expression value => exact .expression ⟨value.1.mono hr, value.2⟩

theorem marks_keyword {k : Kind} (h : k = .letKeyword ∨ k = .constKeyword) :
    Kind.parentheses.marks k = false := by rcases h with rfl | rfl <;> rfl

theorem parentheses (h : Derives m room w next s) (hw : ∀ t ∈ w, t.lexeme.Spelled) :
    Kind.parentheses.Balanced (w.map Token.kind) ∧
      Kind.parentheses.depth (w.map Token.kind) ≤ room ∧
      Derives m (Kind.parentheses.depth (w.map Token.kind)) w next s := by
  cases h with
  | @bare k n s _ keyword name semicolon =>
    have hkinds : [k, n, s].map Token.kind = [.letKeyword, .identifier, .semicolon] := by
      simp [keyword, name, semicolon]
    rw [hkinds]
    exact ⟨rfl, Nat.zero_le _, .bare keyword name semicolon⟩
  | @valued k n q s _ v e keyword name equals value semicolon =>
    obtain ⟨hnested, hroom, hin⟩ :=
      value.1.parentheses (fun t ht => Token.consistent_of_spelled (hw t (by simp [ht])))
    have hkinds : (k :: n :: q :: (v ++ [s])).map Token.kind =
        k.kind :: .identifier :: .equals :: (v.map Token.kind ++ [.semicolon]) := by
      simp [name, equals, semicolon]
    have hdepth : Kind.parentheses.depth ((k :: n :: q :: (v ++ [s])).map Token.kind) =
        Kind.parentheses.depth (v.map Token.kind) := by
      rw [hkinds, Brackets.depth_cons (marks_keyword keyword), Brackets.depth_cons rfl,
        Brackets.depth_cons rfl, Brackets.depth_concat rfl]
    rw [hdepth]
    refine ⟨?_, hroom, .valued keyword name equals ⟨hin, value.2⟩ semicolon⟩
    rw [hkinds]
    exact (((hnested.balanced.concat rfl).cons rfl).cons rfl).cons (marks_keyword keyword)
  | expression value =>
    obtain ⟨hnested, hroom, hin⟩ :=
      value.1.parentheses (fun t ht => Token.consistent_of_spelled (hw t ht))
    exact ⟨hnested.balanced, hroom, .expression ⟨hin, value.2⟩⟩

theorem spares (h : Derives m room w next s) (hw : ∀ t ∈ w, t.lexeme.Spelled) :
    Lexeme.Spares (w.map Token.lexeme) (Piece.lexemes s.pieces) := by
  cases h with
  | @bare k n s _ keyword name semicolon =>
    have hname := Lexeme.isName_of_spelled (hw n (by simp)) name
    have hk : k.lexeme = (.letKeyword, "let") := by
      rw [Token.lexeme_of_keyword (hw k (by simp)) (Or.inl keyword), keyword]
      rfl
    have hn : n.lexeme = (.identifier, n.text) := by rw [Token.lexeme, name]
    have hs := Token.lexeme_of_semicolon (hw s (by simp)) semicolon
    rw [lexemes_declaration hname]
    simp only [List.map_cons, List.map_nil, hk, hn, hs]
    exact .refl _
  | @valued k n q s _ v e keyword name equals value semicolon =>
    have hname := Lexeme.isName_of_spelled (hw n (by simp)) name
    have hk := Token.lexeme_of_keyword (hw k (by simp)) keyword
    have hn : n.lexeme = (.identifier, n.text) := by rw [Token.lexeme, name]
    have hq := Token.lexeme_of_equals (hw q (by simp)) equals
    have hs := Token.lexeme_of_semicolon (hw s (by simp)) semicolon
    have hvalue := value.1.spares (fun t ht => hw t (by simp [ht]))
    rw [lexemes_declaration hname]
    simp only [List.map_cons, List.map_append, List.map_nil, hk, hn, hq, hs]
    -- the expression stands between tokens that are the same on both sides
    exact (Lexeme.Spares.refl [_, _, _]).append (hvalue.append (.refl [_]))
  | expression value => exact value.1.spares hw

end Statement.Derives

namespace Program.Derives

variable {m : Matching} {room room' : Nat} {w : List Token} {stop : Token} {ss : List Statement}

theorem mono (h : Derives m room w stop ss) (hr : room ≤ room') : Derives m room' w stop ss := by
  induction h with
  | nil => exact .nil
  | cons first _ ih => exact .cons (first.mono hr) ih

/-- Groups are closed within a statement, so those of one do not add to those of another. -/
theorem parentheses (h : Derives m room w stop ss) (hw : ∀ t ∈ w, t.lexeme.Spelled) :
    Kind.parentheses.Balanced (w.map Token.kind) ∧
      Kind.parentheses.depth (w.map Token.kind) ≤ room ∧
      Derives m (Kind.parentheses.depth (w.map Token.kind)) w stop ss := by
  induction h with
  | nil => exact ⟨Brackets.balanced_nil, Nat.zero_le _, .nil⟩
  | @cons w v stop s ss first _ ih =>
    obtain ⟨hbalanced, hroom, hfirst⟩ := first.parentheses (fun t ht => hw t (by simp [ht]))
    obtain ⟨hbalanced', hroom', hothers⟩ := ih (fun t ht => hw t (by simp [ht]))
    rw [List.map_append, Brackets.depth_append hbalanced]
    exact ⟨hbalanced.append hbalanced', Nat.max_le.2 ⟨hroom, hroom'⟩,
      .cons (hfirst.mono (Nat.le_max_left _ _)) (hothers.mono (Nat.le_max_right _ _))⟩

theorem spares (h : Derives m room w stop ss) (hw : ∀ t ∈ w, t.lexeme.Spelled) :
    Lexeme.Spares (w.map Token.lexeme) (Piece.lexemes (bodyPieces ss)) := by
  rw [lexemes_bodyPieces]
  induction h with
  | nil => exact .refl []
  | @cons w v stop s ss first _ ih =>
    rw [List.map_append, List.flatMap_cons]
    exact (first.spares (fun t ht => hw t (by simp [ht]))).append
      (ih (fun t ht => hw t (by simp [ht])))

end Program.Derives

namespace Program

variable {config : Config} {source : String} {p : Program}

theorem kinds_of_lexemes {ts : List Token} {ls : List Lexeme} (h : ts.map Token.lexeme = ls) :
    ts.map Token.kind = ls.map Prod.fst := by
  rw [← h, List.map_map]
  rfl

/-- A text is cut into pieces whose tokens are those of the text of its program, with parentheses
to spare; in both texts as many groups are closed as opened, and no deeper in the latter. -/
theorem spares_of_ofSource (h : ofSource config source = .ok p) :
    ∃ ps, source.toList = Piece.joined ps ∧ Piece.Tiles ps [] ∧ Piece.Tiles p.pieces [] ∧
      Lexeme.Spares (Piece.lexemes ps) (Piece.lexemes p.pieces) ∧
      Kind.parentheses.Balanced ((Piece.lexemes ps).map Prod.fst) ∧
      Kind.parentheses.Balanced ((Piece.lexemes p.pieces).map Prod.fst) ∧
      Kind.parentheses.depth ((Piece.lexemes p.pieces).map Prod.fst) ≤
        Kind.parentheses.depth ((Piece.lexemes ps).map Prod.fst) := by
  obtain ⟨ps, hsource, htiles, hd⟩ := ofSource_eq_ok_iff.1 h
  have hspelled : ∀ t ∈ place config.fileName 0 ps, t.lexeme.Spelled :=
    fun t ht => spelled_of_mem_place htiles ht
  have hlexemes : (place config.fileName 0 ps).map Token.lexeme = Piece.lexemes ps :=
    lexemes_place _ _ _
  obtain ⟨hbalanced, _, hexact⟩ := hd.parentheses hspelled
  have hspares := hd.spares hspelled
  rw [kinds_of_lexemes hlexemes] at hbalanced hexact
  rw [hlexemes] at hspares
  -- there is just room for the groups of the text, so its program has none that are deeper
  have hlegible := hexact.legible hspelled
  have hprinted := (tiles_bodyPieces (fun s hs => (hlegible s hs).1)).1
  have hspelled' : ∀ t ∈ place config.fileName 0 p.pieces, t.lexeme.Spelled :=
    fun t ht => spelled_of_mem_place hprinted ht
  have hlexemes' : (place config.fileName 0 p.pieces).map Token.lexeme = Piece.lexemes p.pieces :=
    lexemes_place _ _ _
  have hd' := derives_of_lexemes hlegible hlexemes' hspelled'
    (Matching.neutral_endAt config.matching .null)
  obtain ⟨hbalanced', hdepth, _⟩ := hd'.parentheses hspelled'
  rw [kinds_of_lexemes hlexemes'] at hbalanced' hdepth
  exact ⟨ps, hsource, htiles, hprinted, hspares, hbalanced, hbalanced', hdepth⟩

theorem lexemes_tokenize {ps : List Piece} {text : String} (file : String)
    (htext : text.toList = Piece.joined ps) (htiles : Piece.Tiles ps []) :
    ∃ ts, tokenize file text = .ok ts ∧
      ts.map Token.lexeme = Piece.lexemes ps ++ [(.endOfInput, "EOF")] := by
  refine ⟨_, tokenize_eq_ok_iff.2 ⟨ps, htext, htiles, rfl⟩, ?_⟩
  rw [List.map_append, lexemes_place]
  rfl

/-- The text of a program has the tokens of every text it is read from, in their order, but for
parentheses; and of these no more than any such text has, nor any deeper. -/
theorem ofSource_parentheses (h : ofSource config source = .ok p) (file : String) :
    ∃ ts us, tokenize file source = .ok ts ∧ tokenize file p.text = .ok us ∧
      List.Forall₂ Lexeme.Alike (Lexeme.bare (ts.map Token.lexeme))
        (Lexeme.bare (us.map Token.lexeme)) ∧
      (us.map Token.kind).count .openParen ≤ (ts.map Token.kind).count .openParen ∧
      (us.map Token.kind).count .closeParen ≤ (ts.map Token.kind).count .closeParen ∧
      Kind.parentheses.depth (us.map Token.kind) ≤ Kind.parentheses.depth (ts.map Token.kind) := by
  obtain ⟨ps, hsource, htiles, htiles', hspares, hbalanced, hbalanced', hdepth⟩ :=
    spares_of_ofSource h
  obtain ⟨ts, hts, hlexemes⟩ := lexemes_tokenize file hsource htiles
  obtain ⟨us, hus, hlexemes'⟩ := lexemes_tokenize file p.joined_pieces.symm htiles'
  have hall := hspares.append (Lexeme.Spares.refl [(.endOfInput, "EOF")])
  have hclosed := hbalanced.concat (a := .endOfInput) rfl
  have hclosed' := hbalanced'.concat (a := .endOfInput) rfl
  refine ⟨ts, us, hts, hus, ?_, ?_, ?_, ?_⟩
  · rw [hlexemes, hlexemes']
    exact hall.alike
  · rw [kinds_of_lexemes hlexemes, kinds_of_lexemes hlexemes']
    exact hall.openings
  · rw [kinds_of_lexemes hlexemes, kinds_of_lexemes hlexemes']
    have hopenings := hall.openings
    simp only [Lexeme.openings, List.map_append] at hopenings ⊢
    -- each text closes as many groups as it opens
    exact hclosed'.symm.trans_le (hopenings.trans_eq hclosed)
  · rw [kinds_of_lexemes hlexemes, kinds_of_lexemes hlexemes', List.map_append, List.map_append,
      List.map_singleton, Brackets.depth_concat rfl, Brackets.depth_concat rfl]
    exact hdepth

/-- Two pairs of parentheses and two zeros of a number to spare. -/
theorem ofSource_parentheses_scaled :
    ofSource {} "let x = ((a + 0.00)) * b; (x)" = .ok scaled ∧
      ∃ ts us, tokenize "shell" "let x = ((a + 0.00)) * b; (x)" = .ok ts ∧
        tokenize "shell" scaled.text = .ok us ∧
        List.Forall₂ Lexeme.Alike (Lexeme.bare (ts.map Token.lexeme))
          (Lexeme.bare (us.map Token.lexeme)) ∧
        (us.map Token.kind).count .openParen ≤ (ts.map Token.kind).count .openParen ∧
        (us.map Token.kind).count .closeParen ≤ (ts.map Token.kind).count .closeParen ∧
        Kind.parentheses.depth (us.map Token.kind) ≤
          Kind.parentheses.depth (ts.map Token.kind) :=
  have h : ofSource {} "let x = ((a + 0.00)) * b; (x)" = .ok scaled := by decide +kernel
  ⟨h, ofSource_parentheses h "shell"⟩

end Program

end LetArith
