import LetArith.Cursor.Lookahead
import LetArith.Proofs.Brackets
import LetArith.Proofs.Cursor.Passing

/-! Places as indices.  A cursor is an index into a list of tokens that never changes.  However it
has been moved, copied and dropped, the index is that of a token, not beyond the first one that
closes the input; and what is done with a copy is no matter for the place it was made at. -/

namespace LetArith

namespace Cursor

/-- The cursor as the index of the token at hand among all tokens. -/
structure Indexes (all : List Token) (c : Cursor) : Prop where
  tokens : c.tokens = all
  peek : all[c.position]? = some c.peek
  findIdx_lt : all.findIdx Token.isEnd < all.length
  position_le : c.position ≤ all.findIdx Token.isEnd
  position_add_remaining : c.position + c.remaining = all.findIdx Token.isEnd
  remaining : c.remaining = ((all.drop c.position).takeWhile (fun t => !t.isEnd)).length
  atEnd : c.atEnd = true ↔ c.remaining = 0

theorem findIdx_tokens (c : Cursor) :
    c.tokens.findIdx Token.isEnd = c.position + c.remaining := by
  have hopen : ∀ t ∈ c.behind.reverse ++ c.ahead, t.isEnd = false := by
    intro t ht
    rcases List.mem_append.1 ht with ht | ht
    · exact c.behind_open t (List.mem_reverse.1 ht)
    · exact c.ahead_open t ht
  have hlength := List.findIdx_eq_length_of_false hopen
  rw [tokens, List.findIdx_append, hlength, if_neg (Nat.lt_irrefl _), List.findIdx_cons,
    c.stop_isEnd]
  simp [position, remaining]

theorem takeWhile_drop_position (c : Cursor) :
    (c.tokens.drop c.position).takeWhile (fun t => !t.isEnd) = c.ahead := by
  have hdrop : c.tokens.drop c.position = c.ahead ++ c.stop :: c.beyond := by
    rw [tokens, List.append_assoc, position, ← List.length_reverse, List.drop_left]
  have hopen : ∀ t ∈ c.ahead, (!t.isEnd) = true := fun t ht => by simp [c.ahead_open t ht]
  rw [hdrop, List.takeWhile_append_of_pos hopen,
    List.takeWhile_cons_of_neg (by simp [c.stop_isEnd]), List.append_nil]

theorem indexes (c : Cursor) : c.Indexes c.tokens where
  tokens := rfl
  peek := c.getElem?_position
  findIdx_lt := by
    rw [findIdx_tokens]
    simp [tokens, position, remaining]
  position_le := by
    rw [findIdx_tokens]
    exact Nat.le_add_right _ _
  position_add_remaining := c.findIdx_tokens.symm
  remaining := by rw [takeWhile_drop_position, remaining]
  atEnd := by rw [atEnd_iff, remaining, List.length_eq_zero_iff]

theorem position_next (c : Cursor) :
    c.next.position = c.position + if c.peek.isEnd then 0 else 1 := by
  cases hend : c.peek.isEnd with
  | true =>
    rw [next_of_nil (ahead_eq_nil hend)]
    rfl
  | false =>
    rw [(Passes.next (ahead_of_isEnd_false hend)).position_eq]
    rfl

theorem closure_eq (ts : List Token) : closure ts = [] ∨ closure ts = [closing ts] := by
  unfold closure
  split
  · exact Or.inl rfl
  · exact Or.inr rfl

end Cursor

namespace Lookahead

variable {all : List Token} {l : Lookahead} {s : Step} {steps : List Step}

def cursors (l : Lookahead) : List Cursor := l.current :: l.kept

/-- Copies are opened where they are made and closed where they are dropped. -/
def copies : Brackets Step where
  opens s := s == .copy
  closes s := s == .drop

/-- What each step tells and does at a place among these tokens. -/
structure Acts (all : List Token) (l : Lookahead) : Prop where
  peek : ∃ t, all[l.current.position]? = some t ∧ l.step .peek = (.token t, l)
  atEnd : l.step .atEnd = (.flag (l.current.remaining == 0), l)
  position : l.step .position = (.count l.current.position, l)
  remaining :
    l.step .remaining = (.count (all.findIdx Token.isEnd - l.current.position), l)
  advance : ∃ t c, all[l.current.position]? = some t ∧ l.step .advance = (.token t, l.moveTo c) ∧
    c.tokens = all ∧ c.position = l.current.position + if t.isEnd then 0 else 1
  expect : ∀ kind complaint, ∃ t, all[l.current.position]? = some t ∧
    (t.kind = kind → l.step (.expect kind complaint) = l.step .advance) ∧
    (t.kind ≠ kind → l.step (.expect kind complaint) =
      (.refusal ⟨.unexpected t complaint, t.span.start⟩, l))
  copy : l.step .copy = (.nothing, ⟨l.current, l.current :: l.kept⟩)
  drop : ∀ c kept, l.kept = c :: kept → l.step .drop = (.nothing, ⟨c, kept⟩)

theorem step_expect_of_eq {kind : Kind} {complaint : Complaint} (h : l.current.peek.kind = kind) :
    l.step (.expect kind complaint) = l.step .advance := by
  simp only [step, Cursor.expect, if_pos h]

theorem step_expect_of_ne {kind : Kind} {complaint : Complaint} (h : l.current.peek.kind ≠ kind) :
    l.step (.expect kind complaint) = (.refusal (.unexpected l.current.peek complaint), l) := by
  simp only [step, Cursor.expect, if_neg h]

theorem step_drop {c : Cursor} {kept : List Cursor} (h : l.kept = c :: kept) :
    l.step .drop = (.nothing, ⟨c, kept⟩) := by rw [step, h]

theorem acts (h : l.current.tokens = all) : l.Acts all := by
  have hindexes := l.current.indexes
  rw [h] at hindexes
  refine ⟨⟨_, hindexes.peek, rfl⟩, ?_, rfl, ?_, ⟨_, _, hindexes.peek, rfl, ?_, ?_⟩,
    fun kind complaint => ⟨_, hindexes.peek, step_expect_of_eq, step_expect_of_ne⟩, rfl,
    fun c kept => step_drop⟩
  · have hflag : l.current.atEnd = (l.current.remaining == 0) :=
      Bool.eq_iff_iff.2 (hindexes.atEnd.trans beq_iff_eq.symm)
    rw [← hflag]
    rfl
  · rw [← hindexes.position_add_remaining, Nat.add_sub_cancel_left]
    rfl
  · rw [Cursor.tokens_next, h]
  · exact l.current.position_next

theorem tokens_step (h : ∀ c ∈ l.cursors, c.tokens = all) (s : Step) :
    ∀ c ∈ (l.step s).2.cursors, c.tokens = all := by
  obtain ⟨hcurrent, hkept⟩ := List.forall_mem_cons.1 h
  have hnext : l.current.next.tokens = all := by rw [Cursor.tokens_next, hcurrent]
  cases s with
  | peek => exact h
  | advance => exact List.forall_mem_cons.2 ⟨hnext, hkept⟩
  | atEnd => exact h
  | position => exact h
  | remaining => exact h
  | expect kind complaint =>
    by_cases hk : l.current.peek.kind = kind
    · rw [step_expect_of_eq hk]
      exact List.forall_mem_cons.2 ⟨hnext, hkept⟩
    · rw [step_expect_of_ne hk]
      exact h
  | copy => exact List.forall_mem_cons.2 ⟨hcurrent, h⟩
  | drop =>
    unfold step
    cases hl : l.kept with
    | nil => exact h
    | cons c kept =>
      rw [hl] at hkept
      exact hkept

theorem tokens_run (h : ∀ c ∈ l.cursors, c.tokens = all) (steps : List Step) :
    ∀ c ∈ (l.run steps).cursors, c.tokens = all := by
  induction steps generalizing l with
  | nil => exact h
  | cons s steps ih => exact ih (tokens_step h s)

theorem tokens_ofTokens (ts : List Token) :
    ∀ c ∈ (ofTokens ts).cursors, c.tokens = ts ++ Cursor.closure ts := by
  intro c hc
  rw [List.mem_singleton.1 hc]
  exact Cursor.tokens_ofTokens ts

theorem run_append (l : Lookahead) (steps more : List Step) :
    l.run (steps ++ more) = (l.run steps).run more := List.foldl_append

theorem kept_step (h : copies.marks s = false) : (l.step s).2.kept = l.kept := by
  cases s with
  | expect kind complaint =>
    by_cases hk : l.current.peek.kind = kind
    · rw [step_expect_of_eq hk]
      rfl
    · rw [step_expect_of_ne hk]
  | copy => cases h
  | drop => cases h
  | _ => rfl

/-- Steps that drop no more than their own copies leave the places kept before them, under those
that they have copied and not dropped. -/
theorem exists_kept_run
    (h : ∀ u, u <+: steps → u.countP copies.closes ≤ u.countP copies.opens) :
    ∃ new, (l.run steps).kept = new ++ l.kept ∧ copies.Leaves new.length steps := by
  -- what the last step drops is a copy that the steps before it have made
  induction steps using List.reverseRecOn with
  | nil => exact ⟨[], rfl, rfl⟩
  | append_singleton steps s ih =>
    obtain ⟨new, hnew, hcount⟩ := ih (fun u hu => h u (hu.trans (List.prefix_append _ _)))
    have hall := h _ (List.prefix_refl _)
    unfold Brackets.Leaves at hcount ⊢
    rw [List.countP_append, List.countP_append] at hall ⊢
    rw [run_append, run_cons, run_nil]
    by_cases hcopy : s = .copy
    · subst hcopy
      refine ⟨(l.run steps).current :: new, congrArg _ hnew, ?_⟩
      simp [copies] at hcount ⊢
      omega
    by_cases hdrop : s = .drop
    · subst hdrop
      cases new with
      | nil =>
        simp [copies] at hcount hall
        omega
      | cons c new =>
        refine ⟨new, congrArg (fun r => r.2.kept) (step_drop hnew), ?_⟩
        simp [copies] at hcount ⊢
        omega
    · have hmarks : copies.marks s = false := by simp [Brackets.marks, copies, hcopy, hdrop]
      obtain ⟨hopens, hcloses⟩ := Bool.or_eq_false_iff.1 hmarks
      refine ⟨new, (kept_step hmarks).trans hnew, ?_⟩
      simpa [hopens, hcloses] using hcount

/-- Whatever is done with a copy, and with copies of it, when it is dropped all is as before. -/
theorem run_copy_drop (h : copies.Nested steps) : l.run (.copy :: (steps ++ [.drop])) = l := by
  obtain ⟨new, hnew, hcount⟩ := exists_kept_run (l := (l.step .copy).2) h.closes_le
  have hbalanced := h.balanced
  unfold Brackets.Balanced Brackets.Leaves at *
  obtain rfl : new = [] := List.length_eq_zero_iff.1 (by omega)
  rw [run_cons, run_append, run_cons, run_nil, step_drop hnew]

/-- After any steps all places are indices into the same tokens, which are those of the list and
perhaps one more that closes them, and every further step goes by the token at the index.  The
places kept are not changed by what is done with copies, and dropping a copy leads back. -/
theorem run_indexes (ts : List Token) :
    (Cursor.closure ts = [] ∨ Cursor.closure ts = [Cursor.closing ts] ∧
      (Cursor.closing ts).isEnd = true) ∧
    ∀ steps,
      (∀ c ∈ ((ofTokens ts).run steps).cursors, c.Indexes (ts ++ Cursor.closure ts)) ∧
      ((ofTokens ts).run steps).Acts (ts ++ Cursor.closure ts) ∧
      (∀ more, (∀ u, u <+: more → u.countP copies.closes ≤ u.countP copies.opens) →
        ((ofTokens ts).run steps).kept <:+ ((ofTokens ts).run (steps ++ more)).kept) ∧
      ∀ more, copies.Nested more →
        (ofTokens ts).run (steps ++ .copy :: (more ++ [.drop])) = (ofTokens ts).run steps := by
  refine ⟨(Cursor.closure_eq ts).imp_right (fun h => ⟨h, rfl⟩), fun steps => ?_⟩
  have htokens := tokens_run (tokens_ofTokens ts) steps
  refine ⟨fun c hc => ?_, acts (htokens _ List.mem_cons_self), fun more hmore => ?_,
    fun more hmore => ?_⟩
  · have hindexes := c.indexes
    rwa [htokens c hc] at hindexes
  · obtain ⟨new, hnew, _⟩ := exists_kept_run (l := (ofTokens ts).run steps) hmore
    rw [run_append, hnew]
    exact List.suffix_append new _
  · rw [run_append, run_copy_drop hmore]

def closedTwice : List Token :=
  [⟨.identifier, "a", Span.null⟩, ⟨.endOfInput, "+", Span.null⟩, ⟨.endOfInput, "EOF", Span.null⟩,
    ⟨.identifier, "b", ⟨⟨7, "shell"⟩, ⟨8, "shell"⟩⟩⟩]

theorem run_indexes_closedTwice :
    ((ofTokens closedTwice).run [.advance, .copy, .advance]).current.Indexes
        (closedTwice ++ [Token.endAt ⟨8, "shell"⟩]) ∧
      ((ofTokens closedTwice).run [.advance, .copy, .advance]).current.position = 1 ∧
      (ofTokens closedTwice).run
          ([.advance] ++ .copy :: ([.advance, .copy, .expect .endOfInput .notAnOperand, .drop] ++
            [.drop])) =
        (ofTokens closedTwice).run [.advance] := by
  have hnested : copies.Nested [.advance, .copy, .expect .endOfInput .notAnOperand, .drop] :=
    .cons rfl (.group (a := Step.copy) (c := Step.drop) rfl rfl rfl
      (Brackets.nested_singleton (a := .expect .endOfInput .notAnOperand) rfl) rfl)
  obtain ⟨hplaces, _⟩ := (run_indexes closedTwice).2 [.advance, .copy, .advance]
  exact ⟨hplaces _ List.mem_cons_self, rfl,
    ((run_indexes closedTwice).2 [.advance]).2.2.2 _ hnested⟩

end Lookahead

end LetArith
