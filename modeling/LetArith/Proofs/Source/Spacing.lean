import LetArith.Proofs.Grammar.Invariance

/-! Texts from lexemes.  Whatever is put between lexemes to keep them apart, the text that comes
of it is scanned as just these; so that two texts with the same lexemes are read as one program,
or are refused at the same lexeme. -/

namespace LetArith
namespace Lexeme

variable {l : Lexeme} {rest : List Char}

theorem Spelled.longest (h : l.Spelled)
    (word : l.1 ∈ Kind.words → ∀ c ∈ rest.head?, isWordPart c = false)
    (number : l.1 = .number → ∀ c ∈ rest.head?, c.isDigit = false ∧ c ≠ '.')
    (slash : l.1 = .slash → rest.head? ≠ some '/') : l.Longest rest := by
  obtain ⟨kind, s⟩ := l
  rcases h.cases with ⟨hkind, hchars⟩ | ⟨hkind, hnumeral⟩ | ⟨c, hchars, hmark⟩
  · have hlongest : Longest rest (if s = "let" then .letKeyword else if s = "const" then .constKeyword
        else .identifier, s) := .word hchars (word hkind)
    simp only [Kind.words, List.mem_cons, List.not_mem_nil, or_false] at hkind
    rcases hkind with rfl | rfl | rfl
    · obtain ⟨_, hlet, hconst⟩ := h
      rwa [if_neg hlet, if_neg hconst] at hlongest
    · cases h
      exact hlongest
    · cases h
      exact hlongest
  · cases hkind
    have hends := fun c hc => (number rfl c hc).1
    rcases hnumeral with hdigits | ⟨whole, fraction, hwhole, hfraction, hchars⟩
    · refine .whole hdigits hends fun c cs hpoint => ?_
      exact absurd rfl (number rfl '.' (by rw [hpoint]; rfl)).2
    · exact .fraction hwhole hfraction hchars hends
  · exact .mark (mem_marks_of_toList hchars hmark) slash

theorem Spelled.starts {c : Char} {cs : List Char} (h : l.Spelled) (hchars : l.2.toList = c :: cs) :
    c ≠ '.' ∧ (isWordStart c = true → l.1 ∈ Kind.words) ∧ (c.isDigit = true → l.1 = .number) := by
  rcases h.cases with ⟨hkind, _, _, hword, hc, _⟩ | ⟨hkind, hnumeral⟩ | ⟨_, hmark, hc⟩
  · cases hword.symm.trans hchars
    have hdigit : c.isDigit = false := by
      rw [Bool.eq_false_iff]
      intro hd
      rw [isWordStart_of_isDigit hd] at hc
      cases hc
    refine ⟨?_, fun _ => hkind, by simp [hdigit]⟩
    rintro rfl
    exact absurd hc (by decide)
  · obtain ⟨_, _, hnumber, hc⟩ := head_of_isNumeral hnumeral
    cases hnumber.symm.trans hchars
    refine ⟨?_, by simp [isWordStart_of_isDigit hc], fun _ => hkind⟩
    rintro rfl
    exact absurd hc (by decide)
  · cases hmark.symm.trans hchars
    obtain ⟨hword, hdigit, _⟩ := eq_of_ofMark? hc
    refine ⟨?_, by simp [hword], by simp [hdigit]⟩
    rintro rfl
    cases hc

/-- Side by side the two lexemes would be taken for one, or for the beginning of a comment. -/
def Joins (l next : Lexeme) : Prop :=
  l.1 ∈ Kind.words ∧ (next.1 ∈ Kind.words ∨ next.1 = .number) ∨
    l.1 = .number ∧ next.1 = .number ∨ l.1 = .slash ∧ next.1 = .slash

/-- What stands behind the lexeme does not make it the beginning of a comment. -/
def ClearOf (l : Lexeme) (gap : List Char) : Prop :=
  l.1 = .slash → ∀ c ∈ gap.head?, isBlank c = true

instance (l next : Lexeme) : Decidable (l.Joins next) := inferInstanceAs (Decidable (_ ∨ _))
instance (l : Lexeme) (gap : List Char) : Decidable (l.ClearOf gap) :=
  decidable_of_iff (l.1 = .slash → gap.head?.all isBlank = true)
    (by cases gap <;> simp [ClearOf])

end Lexeme

/-- `Spread before ls cs`: behind the lexeme `before`, or at the beginning of a text if there is
none, the characters `cs` are the lexemes `ls` with separators around them.  A comment that
nothing comes after may be open. -/
inductive Spread : Option Lexeme → List Lexeme → List Char → Prop where
  | last {before : Option Lexeme} {gap : List Char} (separator : Separator gap)
      (clear : ∀ b ∈ before, b.ClearOf gap) : Spread before [] gap
  | comment {before : Option Lexeme} {gap line : List Char} (separator : Separator gap)
      (inside : ∀ c ∈ line, c ≠ '\n') (clear : ∀ b ∈ before, b.ClearOf (gap ++ '/' :: '/' :: line)) :
      Spread before [] (gap ++ '/' :: '/' :: line)
  | lexeme {before : Option Lexeme} {gap cs : List Char} {l : Lexeme} {ls : List Lexeme}
      (separator : Separator gap) (clear : ∀ b ∈ before, b.ClearOf gap)
      (apart : ∀ b ∈ before, b.Joins l → gap ≠ []) (spelled : l.Spelled)
      (others : Spread (some l) ls cs) : Spread before (l :: ls) (gap ++ l.2.toList ++ cs)

namespace Spread

variable {b : Lexeme} {ls : List Lexeme} {cs : List Char}

theorem head (h : Spread (some b) ls cs) {c : Char} (hc : c ∈ cs.head?) :
    isBlank c = true ∨ c = '/' ∧ b.1 ≠ .slash ∨
      ∃ l : Lexeme, ∃ ds, l.Spelled ∧ ¬ b.Joins l ∧ l.2.toList = c :: ds := by
  -- a separator that is not empty begins with white space or, but behind a slash, a comment
  have hgap : ∀ gap : List Char, b.ClearOf gap → c ∈ gap.head? → (isBlank c = true ∨ c = '/') →
      isBlank c = true ∨ c = '/' ∧ b.1 ≠ .slash := by
    intro gap hclear hhead hcases
    rcases hcases with hblank | rfl
    · exact .inl hblank
    · refine .inr ⟨rfl, fun hb => ?_⟩
      exact absurd (hclear hb '/' hhead) (by decide)
  cases h with
  | last separator clear =>
    exact (hgap _ (clear b rfl) hc (separator.head c hc)).imp_right .inl
  | @comment _ gap line separator _ clear =>
    refine (hgap _ (clear b rfl) hc ?_).imp_right .inl
    cases gap with
    | nil => exact .inr (Option.some.inj hc).symm
    | cons d gap => exact separator.head c hc
  | @lexeme _ gap cs l ls separator clear apart spelled _ =>
    cases gap with
    | nil =>
      obtain ⟨d, ds, hchars, _⟩ := spelled.head
      rw [List.nil_append, hchars] at hc
      cases hc
      exact .inr (.inr ⟨l, ds, spelled, fun hjoins => apart b rfl hjoins rfl, hchars⟩)
    | cons d gap => exact (hgap _ (clear b rfl) hc (separator.head c hc)).imp_right .inl

theorem longest (h : Spread (some b) ls cs) (hb : b.Spelled) : b.Longest cs := by
  refine hb.longest (fun hword c hc => ?_) (fun hnumber c hc => ?_) (fun hslash hc => ?_)
  · rcases h.head hc with hblank | ⟨rfl, _⟩ | ⟨l, ds, hl, hjoins, hchars⟩
    · exact isWordPart_eq_false_iff.2 ⟨isWordStart_of_isBlank hblank, isDigit_of_isBlank hblank⟩
    · decide
    · obtain ⟨_, hstart, hdigit⟩ := hl.starts hchars
      rw [isWordPart_eq_false_iff, Bool.eq_false_iff, Bool.eq_false_iff]
      exact ⟨fun hc => hjoins (.inl ⟨hword, .inl (hstart hc)⟩),
        fun hc => hjoins (.inl ⟨hword, .inr (hdigit hc)⟩)⟩
  · rcases h.head hc with hblank | ⟨rfl, _⟩ | ⟨l, ds, hl, hjoins, hchars⟩
    · refine ⟨isDigit_of_isBlank hblank, ?_⟩
      rintro rfl
      exact absurd hblank (by decide)
    · decide
    · obtain ⟨hpoint, _, hdigit⟩ := hl.starts hchars
      refine ⟨?_, hpoint⟩
      rw [Bool.eq_false_iff]
      exact fun hc => hjoins (.inr (.inl ⟨hnumber, hdigit hc⟩))
  · rcases h.head hc with hblank | ⟨_, hne⟩ | ⟨l, ds, hl, hjoins, hchars⟩
    · exact absurd hblank (by decide)
    · exact hne hslash
    · have hl : l.1 = .slash := (hl.eq_slash (by simp [hchars])).2
      exact hjoins (.inr (.inr ⟨hslash, hl⟩))

theorem laid {before : Option Lexeme} (h : Spread before ls cs) (file : String) (offset : Nat) :
    ∃ words, Laid file offset cs words [] ∧ words.map Token.lexeme = ls := by
  induction h generalizing offset with
  | last separator _ => exact ⟨[], .gap (separator.gap []), rfl⟩
  | @comment _ gap line separator inside _ =>
    have hopen : Gap ('/' :: '/' :: (line ++ [])) [] := .comment inside (by simp) .nil
    rw [List.append_nil] at hopen
    exact ⟨[], .gap ((separator.gap _).append hopen), rfl⟩
  | @lexeme _ gap cs l ls separator _ _ spelled others ih =>
    obtain ⟨words, hlaid, hwords⟩ := ih (offset + byteSize (gap ++ l.2.toList))
    have hlongest : l.Longest (cs ++ []) := by
      rw [List.append_nil]
      exact others.longest spelled
    exact ⟨_, .token (separator.gap _) hlongest hlaid, by rw [List.map_cons, hwords]; rfl⟩

theorem tokenize_eq_ok {source : String} (h : Spread none ls source.toList) (file : String) :
    ∃ words, words.map Token.lexeme = ls ∧ tokenize file source =
      .ok (words ++ [Token.endAt (.inFile file (byteSize source.toList))]) := by
  obtain ⟨words, hlaid, hwords⟩ := h.laid file 0
  exact ⟨words, hwords, tokenize_eq_ok_iff_laid.2 ⟨words, hlaid, rfl⟩⟩

end Spread

theorem forall₂_answers_of_lexemes {m : Matching} {us vs : List Token}
    (h : us.map Token.lexeme = vs.map Token.lexeme) :
    List.Forall₂ (Token.Answers m m id) us vs := by
  have hsame : List.Forall₂ Eq (us.map Token.lexeme) (vs.map Token.lexeme) := by
    rw [List.forall₂_eq_eq_eq]
    exact h
  rw [List.forall₂_map_left_iff, List.forall₂_map_right_iff] at hsame
  refine hsame.imp fun u v huv => ?_
  have hkind : v.kind = u.kind := congrArg Prod.fst huv.symm
  have htext : v.text = u.text := congrArg Prod.snd huv.symm
  have hnames : Token.Renamed id u v := ⟨hkind, fun _ => htext, fun _ => htext⟩
  exact hnames.answers fun _ _ => ⟨fun _ => rfl, id⟩

namespace Program

def RefusedAt (config : Config) (source : String) (i : Nat) (reason : Reason) : Prop :=
  ∃ ts t, tokenize config.fileName source = .ok ts ∧ ts[i]? = some t ∧
    Move.blamed? (moves config ts) = some i ∧ ofSource config source = .error (reason.diagnostic t)

theorem RefusedAt.of_failsAt {config : Config} {source : String} {words : List Token}
    {place : Position} {i : Nat} {reason : Reason}
    (htokens : tokenize config.fileName source = .ok (words ++ [Token.endAt place]))
    (h : FailsAt config (words ++ [Token.endAt place]) i reason) :
    RefusedAt config source i reason := by
  obtain ⟨hblamed, t, ht, herror⟩ := h
  -- the tokens of a text are closed already
  have hclosure : Cursor.closure (words ++ [Token.endAt place]) = [] := by
    simp [Cursor.closure]
  rw [hclosure, List.append_nil] at ht
  exact ⟨_, t, htokens, ht, hblamed, (ofSource_of_tokenize htokens).trans herror⟩

/-- However lexemes are spread out, the text has them as its tokens; and texts with the same
lexemes are read as the same program, or refused at the same token for the same reason. -/
theorem ofSource_spread (ls : List Lexeme) (a b : String) (ha : Spread none ls a.toList)
    (hb : Spread none ls b.toList) :
    (∀ file, ∃ words, words.map Token.lexeme = ls ∧ tokenize file a =
        .ok (words ++ [Token.endAt (.inFile file (byteSize a.toList))])) ∧
      ∀ config, (∃ p, ofSource config a = .ok p ∧ ofSource config b = .ok p) ∨
        ∃ i reason, RefusedAt config a i reason ∧ RefusedAt config b i reason := by
  refine ⟨ha.tokenize_eq_ok, fun config => ?_⟩
  obtain ⟨us, hus, hua⟩ := ha.tokenize_eq_ok config.fileName
  obtain ⟨vs, hvs, hvb⟩ := hb.tokenize_eq_ok config.fileName
  have hlexemes : (us ++ [Token.endAt (.inFile config.fileName (byteSize a.toList))]).map
      Token.lexeme = (vs ++ [Token.endAt (.inFile config.fileName (byteSize b.toList))]).map
      Token.lexeme := by
    rw [List.map_append, List.map_append, hus, hvs]
    rfl
  rcases ofTokens_answers (forall₂_answers_of_lexemes hlexemes) with
    ⟨p, hp, hp'⟩ | ⟨i, reason, hi, hi'⟩
  · rw [rename_id] at hp'
    exact .inl ⟨p, (ofSource_of_tokenize hua).trans hp, (ofSource_of_tokenize hvb).trans hp'⟩
  · exact .inr ⟨i, reason, .of_failsAt hua hi, .of_failsAt hvb hi'⟩

/-- A number and a name with nothing between them, and a comment behind a slash. -/
theorem ofSource_spread_quotient :
    (∃ words, words.map Token.lexeme =
        [(.number, "2"), (.identifier, "x"), (.slash, "/"), (.identifier, "y")] ∧
      tokenize "shell" "2x/ //\r/\ny//z" = .ok (words ++ [Token.endAt ⟨13, "shell"⟩])) ∧
    ((∃ p, ofSource {} "2x/ //\r/\ny//z" = .ok p ∧ ofSource {} "2 x/y" = .ok p) ∨
      ∃ i reason, RefusedAt {} "2x/ //\r/\ny//z" i reason ∧ RefusedAt {} "2 x/y" i reason) := by
  have htwo : Lexeme.Spelled (.number, "2") := .inl ⟨by decide, List.all_eq_true.1 rfl⟩
  have hx : Lexeme.Spelled (.identifier, "x") := ⟨⟨'x', [], rfl, rfl, by simp⟩, by decide, by decide⟩
  have hslash : Lexeme.Spelled (.slash, "/") := ⟨'/', rfl, rfl⟩
  have hy : Lexeme.Spelled (.identifier, "y") := ⟨⟨'y', [], rfl, rfl, by simp⟩, by decide, by decide⟩
  have hline : Separator (' ' :: '/' :: '/' :: (['\r', '/'] ++ '\n' :: [])) :=
    .blank (by decide) (.comment (by simp) .nil)
  have hclose : "2x/ //\r/\ny//z".toList = [] ++ "2".toList ++ ([] ++ "x".toList ++
      ([] ++ "/".toList ++ (' ' :: '/' :: '/' :: (['\r', '/'] ++ '\n' :: []) ++ "y".toList ++
        ([] ++ '/' :: '/' :: ['z'])))) := by decide
  have hwide : "2 x/y".toList = [] ++ "2".toList ++ ([' '] ++ "x".toList ++
      ([] ++ "/".toList ++ ([] ++ "y".toList ++ []))) := by decide
  obtain ⟨hscan, hread⟩ := ofSource_spread
    [(.number, "2"), (.identifier, "x"), (.slash, "/"), (.identifier, "y")]
    "2x/ //\r/\ny//z" "2 x/y"
    (hclose ▸ .lexeme .nil (by decide) (by decide) htwo
      (.lexeme .nil (by decide) (by decide) hx (.lexeme .nil (by decide) (by decide) hslash
        (.lexeme hline (by decide) (by decide) hy (.comment .nil (by simp) (by decide))))))
    (hwide ▸ .lexeme .nil (by decide) (by decide) htwo
      (.lexeme (.blank (by decide) .nil) (by decide) (by decide) hx
        (.lexeme .nil (by decide) (by decide) hslash
          (.lexeme .nil (by decide) (by decide) hy (.last .nil (by decide))))))
  exact ⟨hscan "shell", hread {}⟩

end Program

end LetArith
