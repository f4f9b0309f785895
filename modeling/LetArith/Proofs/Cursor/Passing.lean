import LetArith.Cursor
import Mathlib.Data.List.TakeWhile

/-! The tokens between two places.  A place is fixed by the place it was reached from and the
tokens passed on the way, so that a parser can be described by the tokens it passes. -/

namespace LetArith
namespace Cursor

/-- The place `d` comes after `c`, with exactly the tokens `w` between them. -/
structure Passes (c : Cursor) (w : List Token) (d : Cursor) : Prop where
  ahead : c.ahead = w ++ d.ahead
  behind : d.behind = w.reverse ++ c.behind
  stop : d.stop = c.stop
  beyond : d.beyond = c.beyond

/-- The tokens from the place on, up to the one that closes the input. -/
def rest (c : Cursor) : List Token := c.ahead ++ [c.stop]

theorem peek_of_ahead {c : Cursor} {t : Token} {ts : List Token} (h : c.ahead = t :: ts) :
    c.peek = t := by simp [peek, h]

theorem peek_of_nil {c : Cursor} (h : c.ahead = []) : c.peek = c.stop := by simp [peek, h]

theorem peek_of_rest {c : Cursor} {t : Token} {ts : List Token} (h : c.rest = t :: ts) :
    c.peek = t := by
  cases ha : c.ahead with
  | nil => simp_all [rest, peek]
  | cons u us => simp_all [rest, peek]

theorem peek_of_rest_append {c : Cursor} {w ts : List Token} {t : Token}
    (h : c.rest = w ++ t :: ts) : c.peek = w.headD t := by
  cases w with
  | nil => exact peek_of_rest h
  | cons u w => exact peek_of_rest h

theorem rest_eq_cons (c : Cursor) : c.rest = c.peek :: c.rest.tail := by
  cases h : c.ahead <;> simp [rest, peek, h]

theorem ahead_ne_nil {c : Cursor} (h : c.atEnd = false) : c.ahead ≠ [] := by
  intro hnil
  rw [(atEnd_iff c).2 hnil] at h
  cases h

theorem ahead_of_isEnd_false {c : Cursor} (h : c.peek.isEnd = false) :
    c.ahead = c.peek :: c.ahead.tail := by
  cases ha : c.ahead with
  | nil => simp [peek, ha, c.stop_isEnd] at h
  | cons t ts => simp [peek, ha]

theorem ahead_eq_nil {c : Cursor} (h : c.peek.isEnd = true) : c.ahead = [] :=
  (atEnd_iff c).1 h

/-- A token that closes the input has no kind but that of the end. -/
theorem isEnd_of_kind {t : Token} {kind : Kind} (h : t.kind = kind) (hk : kind ≠ .endOfInput) :
    t.isEnd = false := by simp [Token.isEnd, h, hk]

theorem rest_of_isEnd_false {c : Cursor} {t : Token} {ts : List Token} (h : c.rest = t :: ts)
    (ht : t.isEnd = false) : c.ahead = t :: c.ahead.tail ∧ c.next.rest = ts := by
  have hp : c.peek = t := peek_of_rest h
  have ha := ahead_of_isEnd_false (c := c) (by rw [hp]; exact ht)
  rw [hp] at ha
  refine ⟨ha, ?_⟩
  rw [rest, ha, List.cons_append] at h
  rw [rest, ahead_next, stop_next]
  exact (List.cons.inj h).2

/-- The token that closes a list is its first one that does, or the one added to it. -/
theorem stop_ofTokens (ts : List Token) :
    (ofTokens ts).stop = (ts.dropWhile (fun t => !t.isEnd)).headD (closing ts) := by
  unfold ofTokens
  split
  · next h => simp [h]
  · next h => simp [h]

namespace Passes

variable {c d e : Cursor} {t : Token} {u v w : List Token}

theorem refl (c : Cursor) : c.Passes [] c := ⟨rfl, rfl, rfl, rfl⟩

theorem next {ts : List Token} (h : c.ahead = t :: ts) : c.Passes [t] c.next where
  ahead := by simp [ahead_next, h]
  behind := by simp [behind_next h]
  stop := stop_next c
  beyond := beyond_next c

theorem next_of_kind {kind : Kind} (h : c.peek.kind = kind) (hk : kind ≠ .endOfInput) :
    c.Passes [c.peek] c.next :=
  next (ahead_of_isEnd_false (isEnd_of_kind h hk))

theorem trans (h : c.Passes u d) (h' : d.Passes v e) : c.Passes (u ++ v) e where
  ahead := by rw [h.ahead, h'.ahead, List.append_assoc]
  behind := by rw [h'.behind, h.behind, List.reverse_append, List.append_assoc]
  stop := h'.stop.trans h.stop
  beyond := h'.beyond.trans h.beyond

theorem unique (h : c.Passes w d) (h' : c.Passes w e) : d = e := by
  have ha : d.ahead = e.ahead := List.append_cancel_left (h.ahead.symm.trans h'.ahead)
  have hb : d.behind = e.behind := h.behind.trans h'.behind.symm
  have hs : d.stop = e.stop := h.stop.trans h'.stop.symm
  have hy : d.beyond = e.beyond := h.beyond.trans h'.beyond.symm
  cases d
  cases e
  simp_all

theorem eq_of_nil (h : c.Passes [] d) : c = d := (refl c).unique h

theorem of_cons (h : c.Passes (t :: w) d) : c.peek = t ∧ c.next.Passes w d := by
  have ha : c.ahead = t :: (w ++ d.ahead) := h.ahead
  refine ⟨peek_of_ahead ha, ?_, ?_, ?_, ?_⟩
  · simp [ahead_next, ha]
  · simp [h.behind, behind_next ha]
  · simp [h.stop]
  · simp [h.beyond]

theorem split (h : c.Passes (u ++ v) e) : ∃ d, c.Passes u d ∧ d.Passes v e := by
  induction u generalizing c with
  | nil => exact ⟨c, refl c, h⟩
  | cons t u ih =>
    obtain ⟨_, hn⟩ := of_cons h
    obtain ⟨d, hu, hv⟩ := ih hn
    exact ⟨d, (next h.ahead).trans hu, hv⟩

theorem peek_eq (h : c.Passes w d) : c.peek = w.headD d.peek := by
  cases w with
  | nil => rw [eq_of_nil h]; rfl
  | cons t w => exact (of_cons h).1

theorem remaining_eq (h : c.Passes w d) : c.remaining = w.length + d.remaining := by
  simp [remaining, h.ahead]

theorem position_eq (h : c.Passes w d) : d.position = c.position + w.length := by
  simp [position, h.behind, Nat.add_comm]

theorem tokens_eq (h : c.Passes w d) : d.tokens = c.tokens := by
  simp [tokens, h.behind, h.ahead, h.stop, h.beyond]

theorem rest_eq (h : c.Passes w d) : c.rest = w ++ d.rest := by
  simp [rest, h.ahead, h.stop]

theorem isEnd_of_mem (h : c.Passes w d) (ht : t ∈ w) : t.isEnd = false :=
  c.ahead_open t (by rw [h.ahead]; exact List.mem_append_left _ ht)

end Passes

theorem exists_passes {c : Cursor} {w v : List Token} (h : c.rest = w ++ v)
    (hw : ∀ t ∈ w, t.isEnd = false) : ∃ d, c.Passes w d ∧ d.rest = v := by
  induction w generalizing c with
  | nil => exact ⟨c, .refl c, h⟩
  | cons t w ih =>
    obtain ⟨ha, hn⟩ := rest_of_isEnd_false h (hw t (by simp))
    obtain ⟨d, hp, hv⟩ := ih hn (fun u hu => hw u (by simp [hu]))
    exact ⟨d, (Passes.next ha).trans hp, hv⟩

theorem exists_passes_ahead (c : Cursor) :
    ∃ d, c.Passes c.ahead d ∧ d.ahead = [] ∧ d.stop = c.stop := by
  obtain ⟨d, hp, hd⟩ := exists_passes (c := c) (w := c.ahead) (v := [c.stop]) rfl c.ahead_open
  have ha : d.ahead = [] := by
    have h := hp.ahead
    simpa using h
  exact ⟨d, hp, ha, hp.stop⟩

theorem ahead_of_passes {c d : Cursor} {w v : List Token} (hp : c.Passes w d)
    (h : c.ahead = w ++ v) : d.ahead = v :=
  List.append_cancel_left (hp.ahead.symm.trans h)

theorem tokens_eq (c : Cursor) : c.tokens = c.behind.reverse ++ (c.rest ++ c.beyond) := by
  simp [tokens, rest]

theorem getElem?_position (c : Cursor) : c.tokens[c.position]? = some c.peek := by
  cases h : c.ahead <;> simp [tokens, position, peek, h]

/-- The first token that closes the input stands behind those to come. -/
theorem length_takeWhile_tokens (c : Cursor) :
    (c.tokens.takeWhile (fun t => !t.isEnd)).length = c.position + c.remaining := by
  have hopen : ∀ t ∈ c.behind.reverse ++ c.ahead, (!t.isEnd) = true := by
    intro t ht
    rcases List.mem_append.1 ht with ht | ht
    · simp [c.behind_open t (List.mem_reverse.1 ht)]
    · simp [c.ahead_open t ht]
  rw [tokens, List.takeWhile_append_of_pos hopen,
    List.takeWhile_cons_of_neg (by simp [c.stop_isEnd])]
  simp [position, remaining]

theorem ahead_ofTokens_of_open {ts : List Token} (h : ∀ t ∈ ts, t.isEnd = false) :
    (ofTokens ts).ahead = ts := by
  rw [ahead_ofTokens]
  exact List.takeWhile_eq_self_iff.2 (fun t ht => by simp [h t ht])

theorem stop_ofTokens_of_open {ts : List Token} (h : ∀ t ∈ ts, t.isEnd = false) :
    (ofTokens ts).stop = closing ts := by
  rw [stop_ofTokens, List.dropWhile_eq_nil_iff.2 (fun t ht => by simp [h t ht])]
  rfl

/-- The first token that closes the input does so whatever stands behind it. -/
theorem ofTokens_append_end {w : List Token} (hw : ∀ t ∈ w, t.isEnd = false) {t : Token}
    (ht : t.isEnd = true) (ts : List Token) :
    (ofTokens (w ++ t :: ts)).ahead = w ∧ (ofTokens (w ++ t :: ts)).stop = t := by
  have hopen : ∀ x ∈ w, (!x.isEnd) = true := fun x hx => by simp [hw x hx]
  rw [ahead_ofTokens, stop_ofTokens, List.takeWhile_append_of_pos hopen,
    List.dropWhile_append_of_pos hopen]
  simp [ht]

/-- The tokens that a program is read from begin with those of the list. -/
theorem rest_ofTokens_append {w : List Token} (hw : ∀ t ∈ w, t.isEnd = false) (t : Token)
    (ts : List Token) : ∃ us, (ofTokens (w ++ t :: ts)).rest = w ++ t :: us := by
  have htake : (w ++ t :: ts).takeWhile (fun t => !t.isEnd) =
      w ++ (t :: ts).takeWhile (fun t => !t.isEnd) :=
    List.takeWhile_append_of_pos (fun x hx => by simp [hw x hx])
  have hdrop : (w ++ t :: ts).dropWhile (fun t => !t.isEnd) =
      (t :: ts).dropWhile (fun t => !t.isEnd) :=
    List.dropWhile_append_of_pos (fun x hx => by simp [hw x hx])
  rw [rest, ahead_ofTokens, stop_ofTokens, htake, hdrop]
  cases ht : t.isEnd with
  | true => exact ⟨[], by simp [ht]⟩
  | false => exact ⟨ts.takeWhile (fun t => !t.isEnd) ++ [_], by simp [ht]; rfl⟩

end Cursor
end LetArith
