import LetArith.Proofs.Grammar.Limit
import LetArith.Proofs.Grammar.Sequence
import LetArith.Proofs.Source.Separator

/-! What of its tokens a program depends on.  Where they stand is no matter, and names are only
taken over; the texts of other tokens matter as far as they are operators or denote numbers.  How
operators are told matters only for tokens whose text and kind do not go together, and a text has
none of those. -/

namespace LetArith

section Cursor

variable {R : Token → Token → Prop} {ts ts' : List Token}

theorem forall₂_takeWhile_open (h : List.Forall₂ R ts ts')
    (hR : ∀ t t', R t t' → t'.isEnd = t.isEnd) :
    List.Forall₂ R (ts.takeWhile (fun t => !t.isEnd)) (ts'.takeWhile (fun t => !t.isEnd)) := by
  induction h with
  | nil => exact .nil
  | @cons t t' _ _ first _ ih =>
    rw [List.takeWhile_cons, List.takeWhile_cons, hR t t' first]
    split
    · exact .cons first ih
    · exact .nil

theorem forall₂_dropWhile_open (h : List.Forall₂ R ts ts')
    (hR : ∀ t t', R t t' → t'.isEnd = t.isEnd) :
    List.Forall₂ R (ts.dropWhile (fun t => !t.isEnd)) (ts'.dropWhile (fun t => !t.isEnd)) := by
  induction h with
  | nil => exact .nil
  | @cons t t' _ _ first others ih =>
    rw [List.dropWhile_cons, List.dropWhile_cons, hR t t' first]
    split
    · exact ih
    · exact .cons first others

theorem Cursor.parallel_ofTokens (h : List.Forall₂ R ts ts')
    (hR : ∀ t t', R t t' → t'.isEnd = t.isEnd)
    (hend : ∀ place place', R (Token.endAt place) (Token.endAt place')) :
    (ofTokens ts).Parallel R (ofTokens ts') := by
  refine ⟨?_, ?_⟩
  · rw [ahead_ofTokens, ahead_ofTokens]
    exact forall₂_takeWhile_open h hR
  · rw [stop_ofTokens, stop_ofTokens]
    have hdrop := forall₂_dropWhile_open h hR
    generalize ts.dropWhile (fun t => !t.isEnd) = w at hdrop
    generalize ts'.dropWhile (fun t => !t.isEnd) = w' at hdrop
    cases hdrop with
    | nil => exact hend _ _
    | cons first _ => exact first

end Cursor

theorem Move.blamed?_eq {R : Token → Token → Prop} {ms ms' : List Move}
    (h : List.Forall₂ (Move.Parallel R) ms ms') : blamed? ms' = blamed? ms := by
  induction h with
  | nil => rfl
  | @cons a b as bs first others ih =>
    cases others with
    | nil => cases first <;> rfl
    | cons => exact ih

namespace Program

def rename (r : String → String) (p : Program) : Program := ⟨p.body.map (Statement.rename r)⟩

@[simp] theorem rename_id (p : Program) : p.rename id = p := by
  rw [rename, List.map_id'' Statement.rename_id]

variable {config config' : Config} {ts ts' : List Token}

theorem ofTokens_parallel {R : Token → Token → Prop} {r : String → String}
    (hR : ∀ t t', R t t' → t.Answers config.matching config'.matching r t')
    (hdepth : config'.maxDepth = config.maxDepth)
    (hc : (Cursor.ofTokens ts).Parallel R (Cursor.ofTokens ts')) :
    (∃ p, ofTokens config ts = .ok p ∧ ofTokens config' ts' = .ok (p.rename r)) ∨
      ∃ d d', ofTokens config ts = .error d ∧ ofTokens config' ts' = .error d' ∧
        d.Parallel R d' ∧ Move.blamed? (moves config' ts') = Move.blamed? (moves config ts) := by
  have hstep := Traced.parallel_statements hR config.maxDepth (Cursor.ofTokens ts).remaining _ _ hc
  have htraced : traced config' ts' = Traced.statements (Rules.standard config'.matching)
      config.maxDepth (Cursor.ofTokens ts).remaining := by
    rw [traced, hdepth, hc.remaining]
  have hmoves := hstep.moves (by simp [Cursor.position])
  have hparse := hstep.parse
  rw [← htraced] at hmoves hparse
  rw [ofTokens_eq_traced, ofTokens_eq_traced]
  replace hparse : Parse.Agree R _ ((traced config ts).parse (Cursor.ofTokens ts)) _ := hparse
  generalize (traced config ts).parse (Cursor.ofTokens ts) = x at hparse ⊢
  generalize (traced config' ts').parse (Cursor.ofTokens ts') = y at hparse ⊢
  cases hparse with
  | @ok ss ss' _ _ value =>
    subst value
    exact Or.inl ⟨⟨ss⟩, rfl, rfl⟩
  | error failure =>
    exact Or.inr ⟨_, _, rfl, rfl, failure.diagnostic, Move.blamed?_eq hmoves⟩

end Program

/-! Which token is at fault, and how. -/

/-- What a token is refused for. -/
inductive Reason where
  | unexpected (complaint : Complaint)
  | badNumber
  deriving DecidableEq

def Reason.diagnostic : Reason → Token → Diagnostic
  | unexpected complaint, t => .unexpected t complaint
  | badNumber, t => .badNumber t

theorem Reason.diagnostic_injective {reason reason' : Reason} {t t' : Token}
    (h : reason.diagnostic t = reason'.diagnostic t') : reason = reason' ∧ t = t' := by
  cases reason <;> cases reason' <;>
    simp_all [diagnostic, Diagnostic.unexpected, Diagnostic.badNumber]

theorem Diagnostic.Parallel.exists_reason {R : Token → Token → Prop} {d d' : Diagnostic}
    (h : d.Parallel R d') :
    ∃ reason : Reason, ∃ t t', d = reason.diagnostic t ∧ d' = reason.diagnostic t' := by
  cases h with
  | @unexpected t t' complaint _ => exact ⟨.unexpected complaint, t, t', rfl, rfl⟩
  | @badNumber t t' _ => exact ⟨.badNumber, t, t', rfl, rfl⟩

namespace Program

/-- The token with the index `i` is refused for the reason.  The one that is put behind a list
which nothing closes is counted as well. -/
def FailsAt (config : Config) (ts : List Token) (i : Nat) (reason : Reason) : Prop :=
  Move.blamed? (moves config ts) = some i ∧
    ∃ t, (ts ++ Cursor.closure ts)[i]? = some t ∧ ofTokens config ts = .error (reason.diagnostic t)

section FailsAt

variable {config : Config} {ts : List Token} {i j : Nat} {reason reason' : Reason} {p : Program}

theorem FailsAt.of_error {t : Token} (h : ofTokens config ts = .error (reason.diagnostic t))
    (hblamed : Move.blamed? (moves config ts) = some i) : FailsAt config ts i reason := by
  obtain ⟨before, j, u, hmoves, hget, htoken, _⟩ := blames_of_error h
  obtain rfl : t = u := by
    cases reason <;> exact Option.some.inj htoken
  obtain rfl : j = i := by
    rw [hmoves, Move.blamed?_append_blame] at hblamed
    exact Option.some.inj hblamed
  exact ⟨hblamed, t, hget, h⟩

theorem FailsAt.unique (h : FailsAt config ts i reason) (h' : FailsAt config ts j reason') :
    i = j ∧ reason = reason' := by
  obtain ⟨hi, t, _, ht⟩ := h
  obtain ⟨hj, t', _, ht'⟩ := h'
  exact ⟨Option.some.inj (hi.symm.trans hj),
    (Reason.diagnostic_injective (Except.error.inj (ht.symm.trans ht'))).1⟩

theorem not_failsAt (h : ofTokens config ts = .ok p) : ¬ FailsAt config ts i reason := by
  rintro ⟨_, t, _, ht⟩
  cases h.symm.trans ht

end FailsAt

/-- Where the tokens of two lists answer each other, they are read as programs that differ in their
names at most, or the same token of both is refused for one reason. -/
theorem ofTokens_answers_of_parallel {config : Config} {R : Token → Token → Prop}
    {r : String → String} {ts ts' : List Token}
    (hR : ∀ t t', R t t' → t.Answers config.matching config.matching r t')
    (hc : (Cursor.ofTokens ts).Parallel R (Cursor.ofTokens ts')) :
    (∃ p, ofTokens config ts = .ok p ∧ ofTokens config ts' = .ok (p.rename r)) ∨
      ∃ i reason, FailsAt config ts i reason ∧ FailsAt config ts' i reason := by
  rcases ofTokens_parallel hR rfl hc with hok | ⟨d, d', hd, hd', hfault, hblamed⟩
  · exact .inl hok
  · obtain ⟨reason, t, t', rfl, rfl⟩ := hfault.exists_reason
    obtain ⟨before, i, _, hmoves, _⟩ := blames_of_error hd
    have hi : Move.blamed? (moves config ts) = some i := by rw [hmoves, Move.blamed?_append_blame]
    exact .inr ⟨i, reason, .of_error hd hi, .of_error hd' (hblamed.trans hi)⟩

theorem ofTokens_answers {config : Config} {r : String → String} {ts ts' : List Token}
    (h : List.Forall₂ (Token.Answers config.matching config.matching r) ts ts') :
    (∃ p, ofTokens config ts = .ok p ∧ ofTokens config ts' = .ok (p.rename r)) ∨
      ∃ i reason, FailsAt config ts i reason ∧ FailsAt config ts' i reason := by
  have hend : ∀ place place', Token.Answers config.matching config.matching r (Token.endAt place)
      (Token.endAt place') := by
    intro place place'
    refine ⟨rfl, fun tier => ?_, fun _ => rfl, fun hk => by cases hk⟩
    rw [Matching.neutral_endAt, Matching.neutral_endAt]
  have hc := Cursor.parallel_ofTokens h (fun t t' ht => by rw [Token.isEnd, Token.isEnd, ht.kind])
    hend
  exact ofTokens_answers_of_parallel (fun _ _ ht => ht) hc

end Program

/-! How operators are told. -/

def Operator.texts : List String := all.map lexeme

theorem Operator.ofLexeme?_eq_none_iff {s : String} : ofLexeme? s = none ↔ s ∉ texts := by
  simp [ofLexeme?, texts, List.find?_eq_none]

namespace Matching

theorem operator?_congr (m : Matching) {t t' : Token} (kind : t'.kind = t.kind)
    (text : t'.text = t.text) (tier : Tier) : m.operator? tier t' = m.operator? tier t := by
  cases m <;> simp [operator?, operatorText?, kind, text]

theorem neutral_of_kind {t : Token} (h : t.kind.isOperator = false) : byKind.Neutral t := by
  intro tier
  simp [operator?, operatorText?, h]

end Matching

namespace Token

/-- The text and the kind of a token agree on whether it is an operator. -/
def Consistent (t : Token) : Prop := t.text ∈ Operator.texts ↔ t.kind ∈ Kind.operators

theorem consistent_endAt (place : Position) : (endAt place).Consistent := by
  show "EOF" ∈ Operator.texts ↔ Kind.endOfInput ∈ Kind.operators
  decide

theorem consistent_of_spelled {t : Token} (h : t.lexeme.Spelled) : t.Consistent := by
  obtain ⟨kind, text, span⟩ := t
  constructor
  · intro htext
    obtain ⟨op, _, hop⟩ := List.mem_map.1 htext
    have hkind : kind = op.kind := kind_of_spelled h (hop ▸ Operator.ofLexeme?_lexeme op)
    show kind ∈ Kind.operators
    rw [hkind]
    exact List.contains_iff_mem.1 op.isOperator_kind
  · intro hkind
    have hwords : ∀ k ∈ Kind.words, k ∉ Kind.operators := by decide
    have hmarks : ∀ l ∈ Lexeme.marks, l.1 ∈ Kind.operators → l.2 ∈ Operator.texts := by decide
    rcases h.cases with ⟨hword, _⟩ | ⟨hnumber, _⟩ | ⟨c, hchars, hmark⟩
    · exact absurd hkind (hwords kind hword)
    · have hnone : Kind.number ∉ Kind.operators := by decide
      cases hnumber
      exact absurd hkind hnone
    · exact hmarks _ (Lexeme.mem_marks_of_toList hchars hmark) hkind

theorem Consistent.mem_operators {t : Token} (h : t.Consistent) {op : Operator}
    (hop : Operator.ofLexeme? t.text = some op) : t.kind ∈ Kind.operators := by
  apply h.1
  by_contra htext
  rw [Operator.ofLexeme?_eq_none_iff.2 htext] at hop
  cases hop

theorem Consistent.ofLexeme?_eq_none {t : Token} (h : t.Consistent)
    (hk : t.kind ∉ Kind.operators) : Operator.ofLexeme? t.text = none := by
  cases hop : Operator.ofLexeme? t.text with
  | none => rfl
  | some op => exact absurd (h.mem_operators hop) hk

theorem Consistent.answers {t : Token} (h : t.Consistent) : t.Answers .byText .byKind id t := by
  refine ⟨rfl, fun tier => ?_, fun _ => rfl, fun _ => rfl⟩
  by_cases hk : t.kind ∈ Kind.operators
  · have hoperator : t.kind.isOperator = true := List.contains_iff_mem.2 hk
    simp [Matching.operator?, Matching.operatorText?, hoperator]
  · have hnone := Operator.ofLexeme?_eq_none_iff.2 (fun htext => hk (h.1 htext))
    rw [Matching.neutral_of_text hnone, Matching.neutral_of_text hnone]

end Token

namespace Program

/-- Consistent tokens are read as the same program, or have the same fault, under both matchings. -/
theorem ofTokens_of_consistent (config : Config) {ts : List Token} (h : ∀ t ∈ ts, t.Consistent) :
    ofTokens { config with matching := .byText } ts =
      ofTokens { config with matching := .byKind } ts := by
  have hR : ∀ t t' : Token, t.Consistent ∧ t = t' → t.Answers .byText .byKind id t' := by
    rintro t _ ⟨ht, rfl⟩
    exact ht.answers
  have hstop : (Cursor.ofTokens ts).stop.Consistent := by
    rw [Cursor.stop_ofTokens]
    cases hdrop : ts.dropWhile (fun t => !t.isEnd) with
    | nil => exact Token.consistent_endAt _
    | cons t us => exact h t ((List.dropWhile_subset _) (hdrop ▸ List.mem_cons_self))
  have hc : (Cursor.ofTokens ts).Parallel (fun t t' => t.Consistent ∧ t = t')
      (Cursor.ofTokens ts) := by
    refine ⟨List.forall₂_same.2 fun t ht => ⟨h t ?_, rfl⟩, hstop, rfl⟩
    rw [Cursor.ahead_ofTokens] at ht
    exact List.takeWhile_subset _ ht
  rcases @ofTokens_parallel { config with matching := .byText } { config with matching := .byKind }
    ts ts _ id hR rfl hc with ⟨p, hp, hp'⟩ | ⟨d, d', hd, hd', hfault, _⟩
  · rw [hp, hp', rename_id]
  · rw [hd, hd']
    cases hfault with
    | unexpected _ tokens => rw [tokens.2]
    | badNumber tokens => rw [tokens.2]

/-- A text is read in the same way under both matchings, and so are all tokens that have the texts
of operators just if they have their kinds. -/
theorem ofSource_matching (config : Config) (source : String) (ts : List Token) :
    ofSource { config with matching := .byText } source =
        ofSource { config with matching := .byKind } source ∧
      ((∀ t ∈ ts, t.text ∈ Operator.texts ↔ t.kind ∈ Kind.operators) →
        ofTokens { config with matching := .byText } ts =
          ofTokens { config with matching := .byKind } ts) := by
  refine ⟨?_, ofTokens_of_consistent config⟩
  -- the scanner sees nothing of a configuration but the name of the file
  have htokens : ∀ m : Matching, tokenize (Config.fileName { config with matching := m }) source =
      tokenize config.fileName source := fun _ => rfl
  cases hscan : tokenize config.fileName source with
  | error d =>
    rw [ofSource_of_tokenize_error ((htokens .byText).trans hscan),
      ofSource_of_tokenize_error ((htokens .byKind).trans hscan)]
  | ok us =>
    rw [ofSource_of_tokenize ((htokens .byText).trans hscan),
      ofSource_of_tokenize ((htokens .byKind).trans hscan)]
    obtain ⟨w, place, rfl, hspelled⟩ := exists_spelled hscan
    refine ofTokens_of_consistent config (fun t ht => ?_)
    rcases List.mem_append.1 ht with ht | ht
    · exact Token.consistent_of_spelled (hspelled t ht)
    · rw [List.mem_singleton.1 ht]
      exact Token.consistent_endAt place

/-- Operators with the kinds of others, and a name and a number in place of marks. -/
def crossed : List Token :=
  [⟨.identifier, "let", Span.null⟩, ⟨.star, "+", Span.null⟩, ⟨.identifier, "(", Span.null⟩,
    ⟨.dash, "/", Span.null⟩, ⟨.identifier, ";", Span.null⟩]

theorem ofSource_matching_crossed :
    (∀ t ∈ crossed, t.text ∈ Operator.texts ↔ t.kind ∈ Kind.operators) ∧
      ofTokens { ({} : Config) with matching := .byText } crossed =
        ofTokens { ({} : Config) with matching := .byKind } crossed ∧
      ofTokens { ({} : Config) with matching := .byKind } crossed =
        .ok ⟨[.expression (.binary (.identifier "let") .add
          (.binary (.identifier "(") .divide (.identifier ";")))]⟩ := by
  have hconsistent : ∀ t ∈ crossed, t.text ∈ Operator.texts ↔ t.kind ∈ Kind.operators := by decide
  exact ⟨hconsistent, (ofSource_matching {} "" crossed).2 hconsistent, by decide +kernel⟩

end Program

/-! Other names. -/

/-- The token `t'` is `t` with another name, if it is one, and in another place. -/
structure Token.Renamed (r : String → String) (t t' : Token) : Prop where
  kind : t'.kind = t.kind
  text : t.kind ≠ .identifier → t'.text = t.text
  name : t.kind = .identifier → t'.text = r t.text

theorem Token.Renamed.answers {m : Matching} {r : String → String} {t t' : Token}
    (h : t.Renamed r t') (hop : m = .byText → t.kind = .identifier →
      (t.text ∈ Operator.texts → r t.text = t.text) ∧
        (t.text ∉ Operator.texts → r t.text ∉ Operator.texts)) :
    t.Answers m m r t' := by
  refine ⟨h.kind, fun tier => ?_, fun hk => by rw [h.text (by simp [hk])], h.name⟩
  by_cases hk : t.kind = .identifier
  · cases m with
    | byKind =>
      have hnone : t.kind.isOperator = false := by rw [hk]; decide
      have hnone' : t'.kind.isOperator = false := by rw [h.kind, hnone]
      rw [Matching.neutral_of_kind hnone, Matching.neutral_of_kind hnone']
    | byText =>
      obtain ⟨hfixed, hfree⟩ := hop rfl hk
      by_cases htext : t.text ∈ Operator.texts
      · exact Matching.operator?_congr .byText h.kind ((h.name hk).trans (hfixed htext)) tier
      · have htext' : t'.text ∉ Operator.texts := h.name hk ▸ hfree htext
        rw [Matching.neutral_of_text (Operator.ofLexeme?_eq_none_iff.2 htext),
          Matching.neutral_of_text (Operator.ofLexeme?_eq_none_iff.2 htext')]
  · exact Matching.operator?_congr m h.kind (h.text hk) tier

section Injective

variable {r : String → String}

theorem Expr.rename_injective (hr : Function.Injective r) : Function.Injective (Expr.rename r) := by
  intro e e' he
  induction e generalizing e' with
  | binary left op right ihl ihr =>
    cases e' with
    | binary left' op' right' =>
      simp only [rename, binary.injEq] at he
      rw [ihl he.1, he.2.1, ihr he.2.2]
    | _ => simp [rename] at he
  | identifier s =>
    cases e' with
    | identifier s' => rw [hr (identifier.inj he)]
    | _ => simp [rename] at he
  | number x =>
    cases e' with
    | number y => exact he
    | _ => simp [rename] at he

theorem Statement.rename_injective (hr : Function.Injective r) :
    Function.Injective (Statement.rename r) := by
  intro s s' hs
  cases s with
  | declaration d =>
    cases s' with
    | declaration d' =>
      obtain ⟨constant, name, value⟩ := d
      obtain ⟨constant', name', value'⟩ := d'
      simp only [rename, Declaration.rename, declaration.injEq, Declaration.mk.injEq] at hs
      rw [hs.1, hr hs.2.1, Option.map_injective (Expr.rename_injective hr) hs.2.2]
    | expression e => simp [rename] at hs
  | expression e =>
    cases s' with
    | declaration d => simp [rename] at hs
    | expression e' => rw [Expr.rename_injective hr (expression.inj hs)]

theorem Program.rename_injective (hr : Function.Injective r) :
    Function.Injective (Program.rename r) := by
  intro p p' hp
  obtain ⟨body⟩ := p
  obtain ⟨body'⟩ := p'
  exact congrArg Program.mk (List.map_injective_iff.2 (Statement.rename_injective hr) (mk.inj hp))

end Injective

namespace Program

/-- Programs are read from tokens with other names as they are from those with the old ones, and
the same token is refused for the same reason.  Names may be put together by `r`, and then more
than one program can have had them; operators among the names are to be kept apart if they are
told by their texts. -/
theorem ofTokens_rename (config : Config) (r : String → String) (ts ts' : List Token)
    (h : List.Forall₂ (Token.Renamed r) ts ts')
    (hop : config.matching = .byText → ∀ t ∈ ts, t.kind = .identifier →
      (t.text ∈ Operator.texts → r t.text = t.text) ∧
        (t.text ∉ Operator.texts → r t.text ∉ Operator.texts)) :
    (∀ q, ofTokens config ts' = .ok q ↔ ∃ p, ofTokens config ts = .ok p ∧ p.rename r = q) ∧
      (Function.Injective r →
        ∀ p, ofTokens config ts = .ok p ↔ ofTokens config ts' = .ok (p.rename r)) ∧
      ∀ i reason, FailsAt config ts i reason ↔ FailsAt config ts' i reason := by
  have hanswers : List.Forall₂ (Token.Answers config.matching config.matching r) ts ts' :=
    (List.forall₂_and_left ts ts').2 ⟨fun t ht => ht, h⟩ |>.imp
      fun t t' ht => ht.2.answers fun hm => hop hm t ht.1
  rcases ofTokens_answers hanswers with ⟨p, hp, hp'⟩ | ⟨i, reason, hi, hi'⟩
  · refine ⟨fun q => ?_, fun hr q => ?_, fun i reason => ?_⟩
    · simp [hp, hp']
    · simp [hp, hp', (rename_injective hr).eq_iff]
    · exact iff_of_false (not_failsAt hp) (not_failsAt hp')
  · obtain ⟨_, t, _, ht⟩ := id hi
    obtain ⟨_, t', _, ht'⟩ := id hi'
    refine ⟨fun q => ?_, fun _ q => ?_, fun j reason' => ?_⟩
    · simp [ht, ht']
    · simp [ht, ht']
    · constructor
      · intro hj
        obtain ⟨rfl, rfl⟩ := hi.unique hj
        exact hi'
      · intro hj
        obtain ⟨rfl, rfl⟩ := hi'.unique hj
        exact hi

/-- Names that are put together, and made an operator, where it is kinds that tell operators. -/
theorem ofTokens_rename_plus :
    ofTokens { ({} : Config) with matching := .byKind }
        [⟨.identifier, "+", Span.null⟩, ⟨.plus, "-", Span.null⟩, ⟨.identifier, "+", Span.null⟩] =
      .ok ⟨[.expression (.binary (.identifier "+") .subtract (.identifier "+"))]⟩ := by
  refine ((ofTokens_rename { ({} : Config) with matching := .byKind } (fun _ => "+")
    [⟨.identifier, "a", Span.null⟩, ⟨.plus, "-", Span.null⟩, ⟨.identifier, "b", Span.null⟩] _
    ?_ (fun hm => by cases hm)).1 _).2
    ⟨⟨[.expression (.binary (.identifier "a") .subtract (.identifier "b"))]⟩, by decide +kernel, rfl⟩
  refine .cons ?_ (.cons ?_ (.cons ?_ .nil)) <;> constructor <;> simp

end Program

end LetArith
