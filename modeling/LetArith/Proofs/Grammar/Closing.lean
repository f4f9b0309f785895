import LetArith.Proofs.Grammar.Invariance

/-! The token that closes the input.  What is read of a list that nothing closes is read of it in
front of every token that does, unless that is an operator as well; what stands behind is no
matter. -/

namespace LetArith

theorem Matching.neutral_of_end {m : Matching} {e : Token} (hend : e.kind = .endOfInput)
    (htext : m = .byText → e.text ∉ Operator.texts) : m.Neutral e := by
  cases m with
  | byText => exact neutral_of_text (Operator.ofLexeme?_eq_none_iff.2 (htext rfl))
  | byKind =>
    have hkind : e.kind.isOperator = false := by
      rw [hend]
      decide
    exact neutral_of_kind hkind

namespace Cursor

theorem closing_concat (ts : List Token) (t : Token) :
    closing (ts ++ [t]) = .endAt t.span.stop := by
  simp [closing]

theorem closure_of_open {ts : List Token} (h : ∀ t ∈ ts, t.isEnd = false) :
    closure ts = [closing ts] := by
  refine if_neg (fun hlast => ?_)
  cases ht : ts.getLast? with
  | none => simp [ht] at hlast
  | some t =>
    rw [ht, Option.any_some, h t (List.mem_of_getLast? ht)] at hlast
    cases hlast

/-- The tokens are the same, or `e` stands where a token was put behind the list. -/
def SameOrEnd (ts : List Token) (e t t' : Token) : Prop := t = t' ∨ t = closing ts ∧ t' = e

variable {ts : List Token} {e : Token}

theorem SameOrEnd.answers {m : Matching} (hend : e.kind = .endOfInput) (hneutral : m.Neutral e)
    {t t' : Token} (h : SameOrEnd ts e t t') : t.Answers m m id t' := by
  rcases h with rfl | ⟨rfl, rfl⟩
  · exact ⟨rfl, fun _ => rfl, fun _ => rfl, fun _ => rfl⟩
  · refine ⟨hend, fun tier => ?_, fun hk => ?_, fun hk => ?_⟩
    · rw [hneutral tier, closing, Matching.neutral_endAt]
    · cases hk
    · cases hk

theorem parallel_append_end (hopen : ∀ t ∈ ts, t.isEnd = false) (hend : e.isEnd = true)
    (rest : List Token) :
    (ofTokens ts).Parallel (SameOrEnd ts e) (ofTokens (ts ++ e :: rest)) := by
  obtain ⟨hahead, hstop⟩ := ofTokens_append_end hopen hend rest
  refine ⟨?_, ?_⟩
  · rw [ahead_ofTokens_of_open hopen, hahead]
    exact List.forall₂_same.2 (fun _ _ => Or.inl rfl)
  · rw [stop_ofTokens_of_open hopen, hstop]
    exact Or.inr ⟨rfl, rfl⟩

end Cursor

namespace Program

variable {config : Config} {ts : List Token} {e : Token} {i : Nat} {reason : Reason}

theorem ofTokens_append_end (hopen : ∀ t ∈ ts, t.isEnd = false) (hend : e.kind = .endOfInput)
    (htext : config.matching = .byText → e.text ∉ Operator.texts) (rest : List Token) :
    (∃ p, ofTokens config ts = .ok p ∧ ofTokens config (ts ++ e :: rest) = .ok p) ∨
      ∃ i reason, FailsAt config ts i reason ∧ FailsAt config (ts ++ e :: rest) i reason := by
  have hneutral := Matching.neutral_of_end hend htext
  have hend' : e.isEnd = true := by simp [Token.isEnd, hend]
  have hc := Cursor.parallel_append_end hopen hend' rest
  rcases ofTokens_answers_of_parallel (fun _ _ h => h.answers hend hneutral) hc with
    ⟨p, hp, hp'⟩ | hfails
  · rw [rename_id] at hp'
    exact .inl ⟨p, hp, hp'⟩
  · exact .inr hfails

theorem FailsAt.append_end (h : FailsAt config ts i reason) (hopen : ∀ t ∈ ts, t.isEnd = false)
    (hend : e.kind = .endOfInput) (htext : config.matching = .byText → e.text ∉ Operator.texts)
    (rest : List Token) : FailsAt config (ts ++ e :: rest) i reason := by
  rcases ofTokens_append_end hopen hend htext rest with ⟨p, hp, _⟩ | ⟨j, reason', hj, hj'⟩
  · exact absurd h (not_failsAt hp)
  · obtain ⟨rfl, rfl⟩ := h.unique hj
    exact hj'

theorem FailsAt.le_length (h : FailsAt config ts i reason) (hopen : ∀ t ∈ ts, t.isEnd = false) :
    i ≤ ts.length := by
  obtain ⟨_, t, hget, _⟩ := h
  have hlt := (List.getElem?_eq_some_iff.1 hget).1
  rw [Cursor.closure_of_open hopen, List.length_append, List.length_singleton] at hlt
  omega

theorem FailsAt.ofTokens_eq {t : Token} (h : FailsAt config ts i reason)
    (hget : (ts ++ Cursor.closure ts)[i]? = some t) :
    ofTokens config ts = .error (reason.diagnostic t) := by
  obtain ⟨_, u, hu, herror⟩ := h
  rw [hget] at hu
  cases hu
  exact herror

/-- Nothing at the first token that closes the input or behind it has to do with what is read.  A
list that nothing closes is closed where its last token ends. -/
theorem ofTokens_closed (config : Config) (ts : List Token) (e : Token) (rest : List Token)
    (hopen : ∀ t ∈ ts, t.kind ≠ .endOfInput) (hend : e.kind = .endOfInput)
    (htext : config.matching = .byText → e.text ∉ Operator.texts) :
    (∀ p, ofTokens config ts = .ok p → ofTokens config (ts ++ e :: rest) = .ok p) ∧
    (∀ d, ofTokens config ts = .error d →
      ∃ i reason, i ≤ ts.length ∧ FailsAt config ts i reason) ∧
    (∀ i reason, i < ts.length → FailsAt config ts i reason →
      FailsAt config (ts ++ e :: rest) i reason ∧
      ofTokens config (ts ++ e :: rest) = ofTokens config ts) ∧
    (∀ reason, FailsAt config ts ts.length reason →
      ofTokens config ts = .error (reason.diagnostic (Cursor.closing ts)) ∧
      FailsAt config (ts ++ e :: rest) ts.length reason ∧
      ofTokens config (ts ++ e :: rest) = .error (reason.diagnostic e)) ∧
    (Cursor.ofTokens ts).tokens = ts ++ [Cursor.closing ts] ∧
    (ts = [] → Cursor.closing ts = .endAt .null) ∧
    (∀ us t, ts = us ++ [t] → Cursor.closing ts = .endAt t.span.stop) := by
  replace hopen : ∀ t ∈ ts, t.isEnd = false := fun t ht => by simp [Token.isEnd, hopen t ht]
  have hclosure := Cursor.closure_of_open hopen
  have hends := ofTokens_append_end hopen hend htext rest
  refine ⟨fun p hp => ?_, fun d hd => ?_, fun i reason hi hfails => ?_, fun reason hfails => ?_,
    ?_, ?_, ?_⟩
  · rcases hends with ⟨q, hq, hq'⟩ | ⟨i, reason, hfails, _⟩
    · rw [hp] at hq
      cases hq
      exact hq'
    · exact absurd hfails (not_failsAt hp)
  · rcases hends with ⟨q, hq, _⟩ | ⟨i, reason, hfails, _⟩
    · cases hq.symm.trans hd
    · exact ⟨i, reason, hfails.le_length hopen, hfails⟩
  · have hfails' := hfails.append_end hopen hend htext rest
    obtain ⟨_, t, ht, herror⟩ := hfails
    rw [List.getElem?_append_left hi] at ht
    refine ⟨hfails', ?_⟩
    rw [herror, hfails'.ofTokens_eq (t := t)]
    rw [List.append_assoc, List.getElem?_append_left hi, ht]
  · have hfails' := hfails.append_end hopen hend htext rest
    exact ⟨hfails.ofTokens_eq (by simp [hclosure]), hfails', hfails'.ofTokens_eq (by simp)⟩
  · rw [Cursor.tokens_ofTokens, hclosure]
  · rintro rfl
    rfl
  · rintro us t rfl
    exact Cursor.closing_concat us t

/-- A declaration that ends where its value should begin. -/
def valueless : List Token :=
  [⟨.letKeyword, "let", Span.null⟩, ⟨.identifier, "x", Span.null⟩,
    ⟨.equals, "=", ⟨⟨6, "shell"⟩, ⟨7, "shell"⟩⟩⟩]

theorem ofTokens_closed_valueless :
    ofTokens {} valueless = .error (.unexpected (.endAt ⟨7, "shell"⟩) .notAnOperand) ∧
      ofTokens {} (valueless ++ ⟨.endOfInput, "end", Span.null⟩ ::
          [⟨.endOfInput, "+", Span.null⟩, ⟨.identifier, "y", Span.null⟩]) =
        .error (.unexpected ⟨.endOfInput, "end", Span.null⟩ .notAnOperand) := by
  have hfails : FailsAt {} valueless valueless.length (.unexpected .notAnOperand) :=
    ⟨by decide +kernel, _, rfl, by decide +kernel⟩
  have hclosed := ofTokens_closed {} valueless ⟨.endOfInput, "end", Span.null⟩
    [⟨.endOfInput, "+", Span.null⟩, ⟨.identifier, "y", Span.null⟩] (by decide) rfl (by decide)
  obtain ⟨herror, _, herror'⟩ := hclosed.2.2.2.1 _ hfails
  exact ⟨herror, herror'⟩

/-- An operator is one even where it closes the input. -/
example : ofTokens {} [⟨.identifier, "a", Span.null⟩] = .ok ⟨[.expression (.identifier "a")]⟩ ∧
    ofTokens {} [⟨.identifier, "a", Span.null⟩, ⟨.endOfInput, "+", Span.null⟩] =
      .error (.unexpected ⟨.endOfInput, "+", Span.null⟩ .notAnOperand) := by decide +kernel

end Program

end LetArith
