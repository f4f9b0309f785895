import LetArith.Proofs.Grammar.FirstFault
import LetArith.Proofs.Grammar.Lockstep
import LetArith.Proofs.Source.Joining
import LetArith.Proofs.Tree.RoundTrip

/-! Programs one below the other.  A text that is a program goes on with the statements of the
text below it, unless these begin with an operator; a text that is none, for a reason other than
its end, has its fault whatever is below it. -/

namespace LetArith

namespace Matching

theorem operator?_shift (m : Matching) (tier : Tier) (bytes : Nat) (t : Token) :
    m.operator? tier (t.shift bytes) = m.operator? tier t := by cases m <;> rfl

theorem Neutral.shift {m : Matching} {t : Token} (h : m.Neutral t) (bytes : Nat) :
    m.Neutral (t.shift bytes) :=
  fun tier => (operator?_shift m tier bytes t).trans (h tier)

end Matching

def Token.Shifted (bytes : Nat) (t t' : Token) : Prop := t' = t.shift bytes

theorem Token.Shifted.answers (m : Matching) {bytes : Nat} {t t' : Token}
    (h : t.Shifted bytes t') : t.Answers m m id t' := by
  rw [h]
  exact ⟨rfl, fun tier => Matching.operator?_shift m tier bytes t, fun _ => rfl, fun _ => rfl⟩

theorem Diagnostic.Parallel.eq_shift {d d' : Diagnostic} {bytes : Nat}
    (h : d.Parallel (Token.Shifted bytes) d') : d' = d.shift bytes := by
  cases h with
  | unexpected complaint tokens =>
    rw [tokens]
    rfl
  | badNumber tokens =>
    rw [tokens]
    rfl

namespace Program

variable {config : Config} {a b : String}

theorem Derives.of_neutral {m : Matching} {room : Nat} {w : List Token} {stop stop' : Token}
    {ss : List Statement} (h : Derives m room w stop ss) (hn : m.Neutral stop') :
    Derives m room w stop' ss := by
  induction h with
  | nil => exact .nil
  | @cons w v stop s ss first _ ih =>
    cases v with
    | nil => exact .cons (first.of_neutral hn) ih
    | cons t v => exact .cons first ih

theorem ofSource_of_tokenize_error {source : String} {d : Diagnostic}
    (h : tokenize config.fileName source = .error d) : ofSource config source = .error d := by
  simp [ofSource, Reading.ofSource, h]

theorem exists_of_open {w v vs : List Token} {t : Token} {place : Position}
    (h : w ++ [Token.endAt place] = v ++ t :: vs) (ht : t.isEnd = false) :
    ∃ x, w = v ++ t :: x := by
  rcases List.eq_nil_or_concat vs with rfl | ⟨x, y, rfl⟩
  · obtain ⟨_, hlast⟩ := List.append_inj' h rfl
    cases hlast
    cases ht
  · rw [List.concat_eq_append, ← List.cons_append, ← List.append_assoc] at h
    exact ⟨x, (List.append_inj' h rfl).1⟩

/-- The tokens of a text are spelled as their kinds are, up to the one that closes it. -/
theorem exists_spelled {file source : String} {ts : List Token}
    (h : tokenize file source = .ok ts) :
    ∃ w place, ts = w ++ [Token.endAt place] ∧ ∀ t ∈ w, t.lexeme.Spelled := by
  obtain ⟨ps, _, htiles, rfl⟩ := tokenize_eq_ok_iff.1 h
  exact ⟨_, _, rfl, fun t ht => spelled_of_mem_place htiles ht⟩

theorem cursor_of_spelled {w : List Token} (hw : ∀ t ∈ w, t.lexeme.Spelled) (place : Position) :
    (Cursor.ofTokens (w ++ [Token.endAt place])).ahead = w ∧
      (Cursor.ofTokens (w ++ [Token.endAt place])).stop = Token.endAt place :=
  Cursor.ofTokens_append_end (fun t ht => Lexeme.isEnd_of_spelled (hw t ht)) rfl []

theorem derives_of_ofSource {p : Program} (h : ofSource config a = .ok p) :
    ∃ w place, tokenize config.fileName a = .ok (w ++ [Token.endAt place]) ∧
      (∀ t ∈ w, t.lexeme.Spelled) ∧
      Derives config.matching config.maxDepth w (Token.endAt place) p.body := by
  obtain ⟨ps, hsource, htiles, hderives⟩ := ofSource_eq_ok_iff.1 h
  exact ⟨_, _, tokenize_eq_ok_iff.2 ⟨ps, hsource, htiles, rfl⟩,
    fun t ht => spelled_of_mem_place htiles ht, hderives⟩

theorem neutral_head_of_ofSource {t : Token} {us : List Token} {q : Program}
    (hb : tokenize config.fileName b = .ok (t :: us)) (hq : ofSource config b = .ok q) :
    config.matching.Neutral t := by
  obtain ⟨w, place, hw, hspelled, hderives⟩ := derives_of_ofSource hq
  have hneutral := neutral_headD hderives hspelled (Matching.neutral_endAt _ place)
  rw [hb] at hw
  cases w <;> cases hw <;> exact hneutral

theorem neutral_head_of_kind {file : String} {t : Token} {us : List Token} (m : Matching)
    (hb : tokenize file b = .ok (t :: us)) (ht : t.kind.isOperator = false) : m.Neutral t := by
  obtain ⟨w, place, hw, hspelled⟩ := exists_spelled hb
  cases w with
  | nil =>
    cases hw
    exact Matching.neutral_endAt m place
  | cons u w =>
    cases hw
    exact Matching.neutral_of_spelled (hspelled t (by simp)) ht

/-- The tokens of a text that is a program are in front of those of the text below it.  Unless
these begin with an operator, they are read as they are without it, only further on. -/
theorem ofSource_below_of_ok {p : Program} {t : Token} {us : List Token}
    (ha : ofSource config a = .ok p) (hb : tokenize config.fileName b = .ok (t :: us))
    (ht : config.matching.Neutral t) :
    ofSource config (a ++ "\n" ++ b) =
      match ofSource config b with
      | .ok q => .ok ⟨p.body ++ q.body⟩
      | .error d => .error (d.shift (a.utf8ByteSize + 1)) := by
  obtain ⟨w, place, hscan, hspelled, hderives⟩ := derives_of_ofSource ha
  obtain ⟨v, place', hv, hspelled'⟩ := exists_spelled hb
  have hbelow := tokenize_below hscan hb
  generalize a.utf8ByteSize + 1 = bytes at hbelow ⊢
  have htokens : w ++ (t :: us).map (Token.shift bytes) =
      (w ++ v.map (Token.shift bytes)) ++ [Token.endAt (place'.shift bytes)] := by
    rw [hv, List.map_append, List.append_assoc]
    rfl
  have hall : ∀ u ∈ w ++ v.map (Token.shift bytes), u.lexeme.Spelled := by
    intro u hu
    rcases List.mem_append.1 hu with hu | hu
    · exact hspelled u hu
    · obtain ⟨x, hx, rfl⟩ := List.mem_map.1 hu
      exact hspelled' x hx
  rw [ofSource_of_tokenize hbelow, ofSource_of_tokenize hb, ofTokens_eq, ofTokens_eq, htokens, hv]
  obtain ⟨hahead, hstop⟩ := cursor_of_spelled hall (place'.shift bytes)
  obtain ⟨hahead', hstop'⟩ := cursor_of_spelled hspelled' place'
  -- the statements of the first text end where those of the second begin
  have hnext : config.matching.Neutral
      ((v.map (Token.shift bytes)).headD (Token.endAt (place'.shift bytes))) := by
    have hshift := ht.shift bytes
    cases v <;> cases hv <;> exact hshift
  rw [← hstop] at hnext
  obtain ⟨d, hp, hread⟩ := all_of_derives (hderives.of_neutral hnext) hahead
  have hparallel : (Cursor.ofTokens (v ++ [Token.endAt place'])).Parallel
      (Token.Shifted bytes) d := by
    refine ⟨?_, ?_⟩
    · rw [hahead', Cursor.ahead_of_passes hp hahead]
      exact List.forall₂_map_right_iff.2 (List.forall₂_same.2 (fun _ _ => rfl))
    · rw [hp.stop, hstop, hstop']
      rfl
  rw [hread]
  rcases Statement.parallel_all (fun _ _ hu => Token.Shifted.answers config.matching hu)
    config.maxDepth hparallel with
    ⟨ss, hss, hss'⟩ | ⟨f, f', hf, hf', hfault⟩
  · rw [hss, hss', List.map_id'' Statement.rename_id]
    rfl
  · rw [hf, hf']
    exact congrArg Except.error hfault.diagnostic.eq_shift

/-- A text that goes wrong before its end goes wrong in the same way above any other. -/
theorem ofSource_below_of_error {us : List Token} {d : Diagnostic} {t : Token}
    (ha : ofSource config a = .error d) (hb : tokenize config.fileName b = .ok us)
    (ht : d.fault.token? = some t) (hopen : t.isEnd = false) :
    ofSource config (a ++ "\n" ++ b) = .error d := by
  cases hscan : tokenize config.fileName a with
  | error d' =>
    -- what cannot be scanned is no token
    obtain ⟨_, _, _, _, _, _, _, rfl⟩ := tokenize_eq_error_iff_laid.1 hscan
    rw [ofSource_of_tokenize_error hscan] at ha
    cases ha
    cases ht
  | ok ts =>
    obtain ⟨w, place, rfl, hspelled⟩ := exists_spelled hscan
    obtain ⟨hahead, hstop⟩ := cursor_of_spelled hspelled place
    rw [ofSource_of_tokenize hscan, ofTokens_eq] at ha
    cases hall : (Statement.all (Rules.standard config.matching) config.maxDepth
      (Cursor.ofTokens (w ++ [Token.endAt place]))).2 with
    | ok ss =>
      rw [hall] at ha
      cases ha
    | error f =>
      rw [hall] at ha
      cases ha
      obtain ⟨v, t', vs, hrest, hblames⟩ := all_blamesFirst hall
      obtain rfl : t' = t := Option.some.inj (hblames.token.symm.trans ht)
      rw [Cursor.rest, hahead, hstop] at hrest
      obtain ⟨x, rfl⟩ := exists_of_open hrest hopen
      have hbelow := tokenize_below hscan hb
      have hv : ∀ u ∈ v, u.isEnd = false :=
        fun u hu => Lexeme.isEnd_of_spelled (hspelled u (List.mem_append_left _ hu))
      rw [List.append_assoc, List.cons_append] at hbelow
      obtain ⟨ys, hys⟩ := Cursor.rest_ofTokens_append hv t'
        (x ++ us.map (Token.shift (a.utf8ByteSize + 1)))
      obtain ⟨g, hg, hd⟩ := hblames.forced _ ys hys
      rw [ofSource_of_tokenize hbelow, ofTokens_eq, hg, ← hd]

/-- One text below another. -/
theorem ofSource_below (config : Config) (a b : String) :
    (∀ p q, ofSource config a = .ok p → ofSource config b = .ok q →
      ofSource config (a ++ "\n" ++ b) = .ok ⟨p.body ++ q.body⟩) ∧
    (∀ p t us d, ofSource config a = .ok p → tokenize config.fileName b = .ok (t :: us) →
      t.kind.isOperator = false → ofSource config b = .error d →
      ofSource config (a ++ "\n" ++ b) = .error (d.shift (a.utf8ByteSize + 1))) ∧
    (∀ d, tokenize config.fileName a = .error d →
      ofSource config a = .error d ∧ ofSource config (a ++ "\n" ++ b) = .error d) ∧
    (∀ d t us, ofSource config a = .error d → d.fault.token? = some t →
      t.kind ≠ .endOfInput → tokenize config.fileName b = .ok us →
      ofSource config (a ++ "\n" ++ b) = .error d) := by
  refine ⟨fun p q hp hq => ?_, fun p t us d hp hb ht hd => ?_, fun d hd => ⟨?_, ?_⟩,
    fun d t us hd ht hk hb => ?_⟩
  · obtain ⟨w, place, hb, _⟩ := derives_of_ofSource hq
    obtain ⟨t, us, hus⟩ := List.exists_cons_of_ne_nil (List.concat_ne_nil (Token.endAt place) w)
    rw [hus] at hb
    rw [ofSource_below_of_ok hp hb (neutral_head_of_ofSource hb hq), hq]
  · rw [ofSource_below_of_ok hp hb (neutral_head_of_kind _ hb ht), hd]
  · exact ofSource_of_tokenize_error hd
  · exact ofSource_of_tokenize_error (tokenize_below_of_error hd b)
  · exact ofSource_below_of_error hd hb ht (by simpa [Token.isEnd] using hk)

/-- A comment at the end of the first text, a declaration cut short at the end of the second, a
character of no use, and a group that is closed but not opened. -/
theorem ofSource_below_lines :
    ofSource {} ("a // sum" ++ "\n" ++ "(b)") =
        .ok ⟨[.expression (.identifier "a")] ++ [.expression (.identifier "b")]⟩ ∧
      ofSource {} ("a // sum" ++ "\n" ++ "let x") =
        .error (Diagnostic.shift 9 (.unexpected (.endAt ⟨5, "shell"⟩) .equalsMissing)) ∧
      ofSource {} ("a $" ++ "\n" ++ "let x") = .error ⟨.unrecognised "$", ⟨2, "shell"⟩⟩ ∧
      ofSource {} ("a) b" ++ "\n" ++ "let x") =
        .error (.unexpected ⟨.closeParen, ")", ⟨⟨1, "shell"⟩, ⟨2, "shell"⟩⟩⟩ .notAnOperand) := by
  have hsum : ofSource {} "a // sum" = .ok ⟨[.expression (.identifier "a")]⟩ := by decide +kernel
  refine ⟨?_, ?_, ?_, ?_⟩
  · exact (ofSource_below {} "a // sum" "(b)").1 _ _ hsum (by decide +kernel)
  · exact (ofSource_below {} "a // sum" "let x").2.1 _ ⟨.letKeyword, "let", ⟨⟨0, "shell"⟩, ⟨3, "shell"⟩⟩⟩
      [⟨.identifier, "x", ⟨⟨4, "shell"⟩, ⟨5, "shell"⟩⟩⟩, .endAt ⟨5, "shell"⟩] _ hsum
      (by decide +kernel) rfl (by decide +kernel)
  · exact ((ofSource_below {} "a $" "let x").2.2.1 _ (by decide +kernel)).2
  · exact (ofSource_below {} "a) b" "let x").2.2.2 _ _
      [⟨.letKeyword, "let", ⟨⟨0, "shell"⟩, ⟨3, "shell"⟩⟩⟩,
        ⟨.identifier, "x", ⟨⟨4, "shell"⟩, ⟨5, "shell"⟩⟩⟩, .endAt ⟨5, "shell"⟩]
      (by decide +kernel) rfl (by decide) (by decide +kernel)

end Program

end LetArith
