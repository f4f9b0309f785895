import LetArith.Proofs.Grammar.Recognition

/-! Failures are found as early as can be.  A parser that fails blames the first token that no
continuation could follow: whatever comes after that token, the failure is the same, and what
stands before it can be completed. -/

namespace LetArith

namespace Token

/-- The text with which a kind of token is supplied where one is missing. -/
def sampleText : Kind → String
  | .openParen => "("
  | .closeParen => ")"
  | .equals => "="
  | .semicolon => ";"
  | _ => "x"

/-- A token of the kind that no operator is mistaken for. -/
def sample (kind : Kind) : Token := ⟨kind, sampleText kind, Span.null⟩

end Token

namespace Matching

theorem neutral_sample (m : Matching) (kind : Kind) : m.Neutral (Token.sample kind) :=
  neutral_of_text (by cases kind <;> decide)

/-- Tokens that may be supplied: none of them is an operator or closes the input. -/
def Plain (m : Matching) (u : List Token) : Prop := ∀ t ∈ u, m.Neutral t ∧ t.isEnd = false

theorem plain_nil (m : Matching) : m.Plain [] := by simp [Plain]

theorem Plain.append {m : Matching} {u v : List Token} (hu : m.Plain u) (hv : m.Plain v) :
    m.Plain (u ++ v) := by
  intro t ht
  rcases List.mem_append.1 ht with h | h
  · exact hu t h
  · exact hv t h

theorem plain_sample (m : Matching) (kind : Kind) (hk : kind ≠ .endOfInput) :
    m.Plain [Token.sample kind] := by
  intro t ht
  rw [List.mem_singleton.1 ht]
  exact ⟨neutral_sample m kind, Cursor.isEnd_of_kind rfl hk⟩

theorem Plain.neutral_peek {m : Matching} {u : List Token} {c d : Cursor} (hu : m.Plain u)
    (hp : c.Passes u d) (hd : m.Neutral d.peek) : m.Neutral c.peek := by
  rw [hp.peek_eq]
  cases u with
  | nil => exact hd
  | cons t u => exact (hu t (by simp)).1

end Matching

namespace Parse

variable {α β : Type} {m : Matching} {p : Parse α} {q : α → Parse β}
  {w : List Token} {t : Token} {c : Cursor}

/-- After `w` the parser fails at `t`, and does so whatever comes after `t`. -/
structure Blames (p : Parse α) (w : List Token) (t : Token) (d : Diagnostic) : Prop where
  token : d.fault.token? = some t
  position : d.position = t.span.start
  forced : ∀ c ts, c.rest = w ++ t :: ts → ∃ f, p c = .error f ∧ f.diagnostic = d

/-- After `w` some tokens can be supplied with which the parser succeeds. -/
def Completable (m : Matching) (p : Parse α) (w : List Token) : Prop :=
  ∃ u a, m.Plain u ∧ ∀ c d, c.Passes (w ++ u) d → m.Neutral d.peek → p c = .ok (a, d)

/-- From `c` the parser fails, if it does, at a token up to which it could have succeeded.
That it can succeed where it begins is no matter of the place, and is stated apart. -/
def BlamesFirst (m : Matching) (p : Parse α) (c : Cursor) : Prop :=
  ∀ f, p c = .error f → ∃ w t ts, c.rest = w ++ t :: ts ∧ Blames p w t f.diagnostic ∧
    (w ≠ [] → Completable m p w)

/-- A success from `c` depends on the tokens passed and, of the next, on its being an operator
at most. -/
def StableAt (m : Matching) (p : Parse α) (c : Cursor) : Prop :=
  ∀ a d, p c = .ok (a, d) → ∃ w, c.Passes w d ∧ ∀ c' d', c'.Passes w d' →
    d'.peek = d.peek ∨ m.Neutral d'.peek → p c' = .ok (a, d')

theorem Recognizes.stableAt {R : List Token → Token → α → Prop} (h : p.Recognizes R)
    (hr : ∀ w next next' a, R w next a → m.Neutral next' → R w next' a) (c : Cursor) :
    StableAt m p c := by
  intro a d hp
  obtain ⟨w, hw, ha⟩ := (h c a d).1 hp
  refine ⟨w, hw, fun c' d' hw' hd' => (h c' a d').2 ⟨w, hw', ?_⟩⟩
  rcases hd' with heq | hn
  · rw [heq]
    exact ha
  · exact hr w d.peek d'.peek a ha hn

theorem Recognizes.completable {R : List Token → Token → α → Prop} (h : p.Recognizes R)
    {u : List Token} {a : α} (hu : m.Plain u) (ha : ∀ next, m.Neutral next → R u next a) :
    Completable m p [] :=
  ⟨u, a, hu, fun c d hp hd => (h c a d).2 ⟨u, hp, ha d.peek hd⟩⟩

theorem blamesFirst_here {d : Diagnostic} (htoken : d.fault.token? = some c.peek)
    (hposition : d.position = c.peek.span.start)
    (herror : ∀ c', c'.peek = c.peek → ∃ f, p c' = .error f ∧ f.diagnostic = d) :
    BlamesFirst m p c := by
  intro f hf
  obtain ⟨g, hg, hd⟩ := herror c rfl
  rw [hf] at hg
  cases hg
  have hblames : Blames p [] c.peek d :=
    ⟨htoken, hposition, fun c' ts hc' => herror c' (Cursor.peek_of_rest hc')⟩
  rw [hd]
  exact ⟨[], c.peek, c.rest.tail, c.rest_eq_cons, hblames, fun h => absurd rfl h⟩

theorem stableAt_advance (hc : c.peek.isEnd = false) : StableAt m advance c := by
  intro t d h
  cases h
  refine ⟨[c.peek], .next (Cursor.ahead_of_isEnd_false hc), fun c' d' hp _ => ?_⟩
  obtain ⟨hpeek, hnext⟩ := hp.of_cons
  rw [advance_apply, hpeek, Cursor.Passes.eq_of_nil hnext]

theorem blamesFirst_advance : BlamesFirst m advance c := by
  intro f h
  cases h

theorem stableAt_expect {kind : Kind} {complaint : Complaint} (hk : kind ≠ .endOfInput)
    (c : Cursor) : StableAt m (expect kind complaint) c :=
  (recognizes_expect complaint hk).stableAt (fun _ _ _ _ h _ => h) c

theorem completable_expect {kind : Kind} {complaint : Complaint} (hk : kind ≠ .endOfInput) :
    Completable m (expect kind complaint) [] :=
  (recognizes_expect complaint hk).completable (m.plain_sample kind hk) (fun _ _ => ⟨rfl, rfl⟩)

theorem blamesFirst_expect {kind : Kind} {complaint : Complaint} :
    BlamesFirst m (expect kind complaint) c := by
  by_cases hk : c.peek.kind = kind
  · intro f h
    rw [expect_eq_ok_iff.2 ⟨hk, rfl, rfl⟩] at h
    cases h
  · apply blamesFirst_here (d := .unexpected c.peek complaint) rfl rfl
    intro c' hc'
    unfold expect Cursor.expect
    rw [hc', if_neg hk]
    exact ⟨_, rfl, rfl⟩

theorem blamesFirst_pure (a : α) : BlamesFirst m (pure a : Parse α) c := by
  intro f h
  cases h

theorem completable_pure (a : α) : Completable m (pure a : Parse α) [] :=
  (recognizes_pure a).completable m.plain_nil (fun _ _ => ⟨rfl, rfl⟩)

theorem BlamesFirst.inGroup (h : BlamesFirst m p c) : BlamesFirst m p.inGroup c := by
  intro f hf
  cases hp : p c with
  | ok r => simp [Parse.inGroup, hp] at hf
  | error g =>
    simp only [Parse.inGroup, hp] at hf
    cases hf
    obtain ⟨w, t, ts, hrest, hb, hcomp⟩ := h g hp
    refine ⟨w, t, ts, hrest, ⟨hb.token, hb.position, fun c' ts' hc' => ?_⟩, fun hw => ?_⟩
    · obtain ⟨f, hf, hd⟩ := hb.forced c' ts' hc'
      exact ⟨{ f with opened := f.opened + 1 }, by simp [Parse.inGroup, hf], hd⟩
    · obtain ⟨u, a, hu, hall⟩ := hcomp hw
      exact ⟨u, a, hu, fun c d hp hd => inGroup_eq_ok_iff.2 (hall c d hp hd)⟩

/-- A parser that may be begun afresh after another can be begun where the other is completed. -/
theorem Completable.bind (hp : Completable m p w) (hq : ∀ a, Completable m (q a) []) :
    Completable m (p >>= q) w := by
  obtain ⟨u, a, hu, hall⟩ := hp
  obtain ⟨v, b, hv, hall'⟩ := hq a
  refine ⟨u ++ v, b, hu.append hv, fun c e hce he => ?_⟩
  rw [← List.append_assoc] at hce
  obtain ⟨d, hcd, hde⟩ := hce.split
  rw [bind_of_ok (hall c d hcd (hv.neutral_peek hde he))]
  exact hall' d e hde he

theorem BlamesFirst.bind (hp : BlamesFirst m p c) (hs : StableAt m p c)
    (hq : ∀ a d, p c = .ok (a, d) → BlamesFirst m (q a) d)
    (hc : ∀ a, Completable m (q a) []) : BlamesFirst m (p >>= q) c := by
  intro f hf
  cases hpc : p c with
  | error g =>
    rw [bind_of_error hpc] at hf
    cases hf
    obtain ⟨w, t, ts, hrest, hb, hcomp⟩ := hp _ hpc
    refine ⟨w, t, ts, hrest, ⟨hb.token, hb.position, fun c' ts' hc' => ?_⟩,
      fun hw => (hcomp hw).bind hc⟩
    obtain ⟨f, hf, hd⟩ := hb.forced c' ts' hc'
    exact ⟨f, bind_of_error hf, hd⟩
  | ok r =>
    obtain ⟨a, d⟩ := r
    rw [bind_of_ok hpc] at hf
    obtain ⟨v, hv, hstable⟩ := hs a d hpc
    obtain ⟨w, t, ts, hrest, hb, hcomp⟩ := hq a d hpc f hf
    have hpeek : d.peek = w.headD t := Cursor.peek_of_rest_append hrest
    have hopen : ∀ x ∈ v, x.isEnd = false := fun x hx => hv.isEnd_of_mem hx
    refine ⟨v ++ w, t, ts, by rw [hv.rest_eq, hrest, List.append_assoc],
      ⟨hb.token, hb.position, fun c' ts' hc' => ?_⟩, fun _ => ?_⟩
    · rw [List.append_assoc] at hc'
      obtain ⟨d', hv', hrest'⟩ := Cursor.exists_passes hc' hopen
      have hpeek' : d'.peek = w.headD t := Cursor.peek_of_rest_append hrest'
      obtain ⟨f, hf, hd⟩ := hb.forced d' ts' hrest'
      refine ⟨f, ?_, hd⟩
      rw [bind_of_ok (hstable c' d' hv' (Or.inl (hpeek'.trans hpeek.symm)))]
      exact hf
    · -- what the second parser needs decides, and if it has passed nothing, it begins afresh
      have hw : Completable m (q a) w := by
        cases w with
        | nil => exact hc a
        | cons x w => exact hcomp (by simp)
      obtain ⟨u, b, hu, hall⟩ := hw
      refine ⟨u, b, hu, fun c' e hce he => ?_⟩
      rw [List.append_assoc] at hce
      obtain ⟨d', hv', hde⟩ := hce.split
      have hnext : d'.peek = d.peek ∨ m.Neutral d'.peek := by
        cases w with
        | nil => exact Or.inr (hu.neutral_peek hde he)
        | cons x w => exact Or.inl (hde.of_cons.1.trans hpeek.symm)
      rw [bind_of_ok (hstable c' d' hv' hnext)]
      exact hall d' e hde he

/-- Where the token at hand decides that a parser is another, it fails as that one does. -/
theorem BlamesFirst.of_peek {q : Parse α} (h : BlamesFirst m q c)
    (heq : ∀ c', c'.peek = c.peek → p c' = q c') : BlamesFirst m p c := by
  intro f hf
  rw [heq c rfl] at hf
  obtain ⟨w, t, ts, hrest, hb, hcomp⟩ := h f hf
  refine ⟨w, t, ts, hrest, ⟨hb.token, hb.position, fun c' ts' hc' => ?_⟩, fun hw => ?_⟩
  · have hpeek : c'.peek = c.peek :=
      (Cursor.peek_of_rest_append hc').trans (Cursor.peek_of_rest_append hrest).symm
    rw [heq c' hpeek]
    exact hb.forced c' ts' hc'
  · obtain ⟨u, a, hu, hall⟩ := hcomp hw
    refine ⟨u, a, hu, fun c' d hp hd => ?_⟩
    have hpeek : c'.peek = c.peek := by
      cases w with
      | nil => exact absurd rfl hw
      | cons x w => rw [hp.of_cons.1, Cursor.peek_of_rest hrest]
    rw [heq c' hpeek]
    exact hall c' d hp hd

end Parse

namespace Expr

open Parse

variable {m : Matching} {tier : Tier} {room : Nat}

theorem whole_sample (m : Matching) (tier : Tier) (room : Nat) {next : Token}
    (hn : m.Neutral next) :
    Whole m tier room [Token.sample .identifier] next (identifier "x") := by
  have hname : Derives m .primary room [Token.sample .identifier] next (identifier "x") :=
    .name rfl
  have hle : tier ≤ Tier.primary := by cases tier <;> decide
  exact ⟨hname.loosen hle (fun between _ => hn between), hn tier⟩

theorem Whole.stableAt {p : Parse Expr} (hp : p.Recognizes (Whole m tier room)) (c : Cursor) :
    StableAt m p c := hp.stableAt (fun _ _ _ _ h hn => h.of_neutral hn) c

theorem Whole.completable {p : Parse Expr} (hp : p.Recognizes (Whole m tier room)) :
    Completable m p [] :=
  hp.completable (m.plain_sample .identifier (by decide)) (fun _ hn => whole_sample m tier room hn)

theorem completable_chainRest {operand : Parse Expr} (left : Expr) :
    Completable m (chainRest (m.operator? tier) operand left) [] := by
  refine ⟨[], left, m.plain_nil, fun c d hp hd => ?_⟩
  rw [Cursor.Passes.eq_of_nil hp]
  exact chainRest_of_none (hd tier)

theorem blamesFirst_chainRest {operand : Parse Expr}
    (hop : operand.Recognizes (Whole m tier.tighter room))
    (hb : ∀ c, BlamesFirst m operand c) (left : Expr) (c : Cursor) :
    BlamesFirst m (chainRest (m.operator? tier) operand left) c := by
  have hadv : operand.Advances := hop.advances (fun _ _ _ => Whole.ne_nil)
  induction hn : c.remaining using Nat.strongRecOn generalizing c left with
  | ind n ih =>
    cases ho : m.operator? tier c.peek with
    | none =>
      intro f hf
      rw [chainRest_of_none ho] at hf
      cases hf
    | some op =>
      cases hend : c.peek.isEnd with
      | false =>
        have hstep : BlamesFirst m (advance >>= fun _ => operand >>= fun right =>
            chainRest (m.operator? tier) operand (binary left op right)) c := by
          refine blamesFirst_advance.bind (stableAt_advance hend) ?_ ?_
          · intro t d hd
            cases hd
            refine (hb c.next).bind (Whole.stableAt hop c.next) ?_ (fun _ => completable_chainRest _)
            intro right d hr
            have hlt := remaining_lt hadv hr
            have hle : c.next.remaining ≤ c.remaining := by
              simp [Cursor.remaining, Cursor.ahead_next]
            exact ih d.remaining (by omega) _ d rfl
          · exact fun _ => (Whole.completable hop).bind (fun _ => completable_chainRest _)
        refine hstep.of_peek (fun c' hc' => ?_)
        rw [chainRest_of_some hadv (by rw [hc']; exact ho), bind_of_ok (advance_apply c')]
      | true =>
        -- an operator that closes the input is not passed, and no operand follows it
        intro f hf
        have hnil : c.ahead = [] := Cursor.ahead_eq_nil hend
        rw [chainRest_of_some hadv ho, Cursor.next_of_nil hnil] at hf
        cases hr : operand c with
        | ok r =>
          have hlt := remaining_lt hadv hr
          simp [Cursor.remaining, hnil] at hlt
        | error g =>
          rw [bind_of_error hr] at hf
          cases hf
          obtain ⟨w, t, ts, hrest, hblame, _⟩ := hb c _ hr
          have hw : w = [] := by
            cases w with
            | nil => rfl
            | cons x w => simp [Cursor.rest, hnil] at hrest
          subst hw
          have hpeek : c.peek = t := Cursor.peek_of_rest hrest
          refine ⟨[], t, ts, hrest, ⟨hblame.token, hblame.position, fun c' ts' hc' => ?_⟩,
            fun h => absurd rfl h⟩
          have hpeek' : c'.peek = t := Cursor.peek_of_rest hc'
          have hnil' : c'.ahead = [] := Cursor.ahead_eq_nil (by rw [hpeek', ← hpeek]; exact hend)
          obtain ⟨f, hf, hd⟩ := hblame.forced c' ts' hc'
          refine ⟨f, ?_, hd⟩
          rw [chainRest_of_some hadv (by rw [hpeek', ← hpeek]; exact ho),
            Cursor.next_of_nil hnil', bind_of_error hf]

theorem blamesFirst_chain {operand : Parse Expr}
    (hop : operand.Recognizes (Whole m tier.tighter room))
    (hb : ∀ c, BlamesFirst m operand c) (c : Cursor) :
    BlamesFirst m (chain (m.operator? tier) operand) c := by
  rw [chain_eq]
  exact (hb c).bind (Whole.stableAt hop c) (fun left d _ => blamesFirst_chainRest hop hb left d)
    (fun _ => completable_chainRest _)

theorem blamesFirst_readNumber {c : Cursor} (hk : c.peek.kind = .number) :
    BlamesFirst m readNumber c := by
  cases hv : Binary64.finiteOfText? c.peek.text with
  | some x =>
    intro f hf
    rw [readNumber_apply hk, hv] at hf
    cases hf
  | none =>
    apply blamesFirst_here (d := .badNumber c.peek) rfl rfl
    intro c' hc'
    rw [readNumber_apply (by rw [hc']; exact hk), hc', hv]
    exact ⟨_, rfl, rfl⟩

theorem blamesFirst_refusedGroup {c : Cursor} : BlamesFirst m refusedGroup c := by
  apply blamesFirst_here (d := .unexpected c.peek .nestedTooDeeply) rfl rfl
  intro c' hc'
  rw [← hc']
  exact ⟨_, rfl, rfl⟩

theorem blamesFirst_groupOf {inner : Parse Expr}
    (hi : inner.Recognizes (Whole m .additive room)) (hb : ∀ c, BlamesFirst m inner c)
    {c : Cursor} (hk : c.peek.kind = .openParen) : BlamesFirst m (groupOf inner) c := by
  have hclose : ∀ e : Expr, Completable m (expect .closeParen .groupNotClosed >>= fun _ => pure e)
      [] := fun e => (completable_expect (by decide)).bind (fun _ => completable_pure e)
  refine blamesFirst_advance.bind (stableAt_advance (Cursor.isEnd_of_kind hk (by decide))) ?_ ?_
  · intro t d _
    refine BlamesFirst.inGroup ((hb d).bind (Whole.stableAt hi d) ?_ hclose)
    intro e d' _
    exact blamesFirst_expect.bind (stableAt_expect (by decide) d')
      (fun _ _ _ => blamesFirst_pure e) (fun _ => completable_pure e)
  · intro _
    obtain ⟨u, e, hu, hall⟩ := (Whole.completable hi).bind hclose
    exact ⟨u, e, hu, fun c d hp hd => inGroup_eq_ok_iff.2 (hall c d hp hd)⟩

theorem blamesFirst_operand {group : Parse Expr}
    (hg : ∀ c, c.peek.kind = .openParen → BlamesFirst m group c) (c : Cursor) :
    BlamesFirst m (operand (Rules.standard m) group) c := by
  cases hr : (Rules.standard m).operand? c.peek.kind with
  | none =>
    apply blamesFirst_here (d := .unexpected c.peek .notAnOperand) rfl rfl
    intro c' hc'
    rw [operand_apply, hc', hr]
    exact ⟨_, rfl, rfl⟩
  | some rule =>
    cases rule with
    | name =>
      intro f hf
      rw [operand_apply, hr] at hf
      replace hf : readIdentifier c = .error f := hf
      rw [readIdentifier_apply ((standard_operand? .name).1 hr)] at hf
      cases hf
    | number =>
      refine (blamesFirst_readNumber ((standard_operand? .number).1 hr)).of_peek (fun c' hc' => ?_)
      rw [operand_apply, hc', hr]
    | group =>
      refine (hg c ((standard_operand? .group).1 hr)).of_peek (fun c' hc' => ?_)
      rw [operand_apply, hc', hr]

theorem blamesFirst_additive {primary : Parse Expr}
    (hp : primary.Recognizes (Derives m .primary room)) (hb : ∀ c, BlamesFirst m primary c)
    (c : Cursor) : BlamesFirst m (additive (Rules.standard m) primary) c := by
  have hprimary : primary.Recognizes (Whole m (Tier.tighter .multiplicative) room) :=
    hp.congr (fun _ _ _ => whole_primary_iff.symm)
  have hmul : ∀ c, BlamesFirst m (multiplicative (Rules.standard m) primary) c :=
    blamesFirst_chain hprimary hb
  exact blamesFirst_chain (recognizes_multiplicative hp) hmul c

theorem blamesFirst_primary (room : Nat) (c : Cursor) :
    BlamesFirst m (primary (Rules.standard m) room) c := by
  induction room generalizing c with
  | zero => exact blamesFirst_operand (fun _ _ => blamesFirst_refusedGroup) c
  | succ room ih =>
    have hp := recognizes_primary m room
    exact blamesFirst_operand
      (fun _ hk => blamesFirst_groupOf (recognizes_additive hp) (blamesFirst_additive hp ih) hk) c

theorem blamesFirst_read (room : Nat) (c : Cursor) :
    BlamesFirst m (read (Rules.standard m) room) c :=
  blamesFirst_additive (recognizes_primary m room) (blamesFirst_primary room) c

end Expr

namespace Declaration

open Parse

variable {m : Matching} {room : Nat}

theorem completable_readValue (constant : Bool) (name : String) :
    Completable m (readValue (Rules.standard m) room constant name) [] := by
  have hu : m.Plain (Token.sample .equals :: ([Token.sample .identifier] ++
      [Token.sample .semicolon])) :=
    (m.plain_sample .equals (by decide)).append
      ((m.plain_sample .identifier (by decide)).append (m.plain_sample .semicolon (by decide)))
  refine (recognizes_readValue m room constant name).completable
    (a := ⟨constant, name, some (.identifier "x")⟩) hu (fun next _ => Or.inr ?_)
  exact ⟨_, _, _, _, rfl, rfl, rfl,
    Expr.whole_sample m .additive room (m.neutral_sample .semicolon), rfl⟩

theorem completable_readNamed (constant : Bool) :
    Completable m (readNamed (Rules.standard m) room constant) [] :=
  (completable_expect (by decide)).bind (fun name => completable_readValue constant name.text)

theorem blamesFirst_readInitializer (room : Nat) (constant : Bool) (name : String) (c : Cursor) :
    BlamesFirst m (readInitializer (Rules.standard m) room constant name) c := by
  have hclose : ∀ e : Expr, Completable m (expect .semicolon .semicolonMissing >>= fun _ =>
      pure (⟨constant, name, some e⟩ : Declaration)) [] :=
    fun e => (completable_expect (by decide)).bind (fun _ => completable_pure _)
  refine blamesFirst_expect.bind (stableAt_expect (by decide) c) ?_ ?_
  · intro q d _
    refine (Expr.blamesFirst_read room d).bind
      (Expr.Whole.stableAt (Expr.recognizes_read m room) d) ?_ hclose
    intro e d' _
    exact blamesFirst_expect.bind (stableAt_expect (by decide) d')
      (fun _ _ _ => blamesFirst_pure _) (fun _ => completable_pure _)
  · exact fun _ => (Expr.Whole.completable (Expr.recognizes_read m room)).bind hclose

theorem blamesFirst_readValue (constant : Bool) (name : String) (c : Cursor) :
    BlamesFirst m (readValue (Rules.standard m) room constant name) c := by
  by_cases hk : c.peek.kind = .semicolon
  · cases constant with
    | false =>
      intro f hf
      rw [readValue_apply, if_pos hk] at hf
      cases hf
    | true =>
      apply blamesFirst_here (d := .unexpected c.peek .initializerMissing) rfl rfl
      intro c' hc'
      rw [readValue_apply, hc', if_pos hk]
      exact ⟨_, rfl, rfl⟩
  · refine (blamesFirst_readInitializer room constant name c).of_peek (fun c' hc' => ?_)
    rw [readValue_apply, hc', if_neg hk]

theorem blamesFirst_readNamed (constant : Bool) (c : Cursor) :
    BlamesFirst m (readNamed (Rules.standard m) room constant) c :=
  blamesFirst_expect.bind (stableAt_expect (by decide) c)
    (fun name d _ => blamesFirst_readValue constant name.text d)
    (fun name => completable_readValue constant name.text)

theorem stableAt_readNamed (constant : Bool) (c : Cursor) :
    StableAt m (readNamed (Rules.standard m) room constant) c :=
  (recognizes_readNamed m room constant).stableAt (fun _ _ _ _ h _ => h) c

end Declaration

namespace Statement

open Parse

variable {m : Matching} {room : Nat}

theorem stableAt_read (c : Cursor) : StableAt m (read (Rules.standard m) room) c :=
  (recognizes_read m room).stableAt (fun _ _ _ _ h hn => h.of_neutral hn) c

theorem completable_read : Completable m (read (Rules.standard m) room) [] :=
  (recognizes_read m room).completable (m.plain_sample .identifier (by decide))
    (fun _ hn => .expression (Expr.whole_sample m .additive room hn))

theorem blamesFirst_read (c : Cursor) : BlamesFirst m (read (Rules.standard m) room) c := by
  by_cases hk : (Rules.standard m).declares c.peek.kind = true
  · have hopen : c.peek.isEnd = false := by
      rcases standard_declares.1 hk with h | h <;> exact Cursor.isEnd_of_kind h (by decide)
    have hstep : BlamesFirst m (advance >>= fun keyword =>
        Declaration.readNamed (Rules.standard m) room (keyword.kind == .constKeyword) >>=
          fun d => pure (declaration d)) c := by
      refine blamesFirst_advance.bind (stableAt_advance hopen) ?_ ?_
      · intro keyword d _
        exact (Declaration.blamesFirst_readNamed _ d).bind (Declaration.stableAt_readNamed _ d)
          (fun _ _ _ => blamesFirst_pure _) (fun _ => completable_pure _)
      · exact fun _ => (Declaration.completable_readNamed _).bind (fun _ => completable_pure _)
    refine hstep.of_peek (fun c' hc' => ?_)
    rw [read_apply, hc', if_pos hk, bind_of_ok (advance_apply c')]
    exact bind_congr (Declaration.read_apply _ _ c')
  · have hstep : BlamesFirst m (Expr.read (Rules.standard m) room >>= fun e =>
        pure (expression e)) c :=
      (Expr.blamesFirst_read room c).bind (Expr.Whole.stableAt (Expr.recognizes_read m room) c)
        (fun _ _ _ => blamesFirst_pure _) (fun _ => completable_pure _)
    exact hstep.of_peek (fun c' hc' => by rw [read_apply, hc', if_neg hk])

end Statement

namespace Program

open Parse

variable {m : Matching} {room : Nat}

/-- After `w` the statements fail at `t`, and do so whatever comes after `t`; but with some
other tokens in its place there are statements to the end. -/
structure Blames (m : Matching) (room : Nat) (w : List Token) (t : Token) (d : Diagnostic) :
    Prop where
  token : d.fault.token? = some t
  position : d.position = t.span.start
  forced : ∀ c ts, c.rest = w ++ t :: ts →
    ∃ f, (Statement.all (Rules.standard m) room c).2 = .error f ∧ f.diagnostic = d
  viable : ∃ u, m.Plain u ∧ ∀ c, c.ahead = w ++ u → m.Neutral c.stop →
    ∃ ss, (Statement.all (Rules.standard m) room c).2 = .ok ss

theorem blames_of_read {w : List Token} {t : Token} {d : Diagnostic}
    (hopen : (w.headD t).isEnd = false)
    (hb : Parse.Blames (Statement.read (Rules.standard m) room) w t d)
    (hcomp : Completable m (Statement.read (Rules.standard m) room) w) :
    Blames m room w t d := by
  refine ⟨hb.token, hb.position, fun c ts hc => ?_, ?_⟩
  · obtain ⟨f, hf, hd⟩ := hb.forced c ts hc
    have hne : c.ahead ≠ [] := by
      rw [← Cursor.peek_of_rest_append hc] at hopen
      rw [Cursor.ahead_of_isEnd_false hopen]
      simp
    exact ⟨f, by rw [Statement.all_of_error hne hf], hd⟩
  · obtain ⟨u, s, hu, hall⟩ := hcomp
    refine ⟨u, hu, fun c hc hstop => ?_⟩
    obtain ⟨e, hp, hnil, he⟩ := Cursor.exists_passes_ahead c
    rw [hc] at hp
    have hread := hall c e hp (by rw [Cursor.peek_of_nil hnil, he]; exact hstop)
    rw [Statement.all_of_ok hread, Statement.all_of_nil hnil]
    exact ⟨[s], rfl⟩

theorem blames_of_first {c e : Cursor} {s : Statement} {v w ts : List Token} {t : Token}
    {d : Diagnostic} (hv : c.Passes v e)
    (hs : ∀ c' e', c'.Passes v e' → e'.peek = e.peek ∨ m.Neutral e'.peek →
      Statement.read (Rules.standard m) room c' = .ok (s, e'))
    (hrest : e.rest = w ++ t :: ts) (hb : Blames m room w t d) :
    Blames m room (v ++ w) t d := by
  have hpeek : e.peek = w.headD t := Cursor.peek_of_rest_append hrest
  have hopen : ∀ x ∈ v, x.isEnd = false := fun x hx => hv.isEnd_of_mem hx
  refine ⟨hb.token, hb.position, fun c' ts' hc' => ?_, ?_⟩
  · rw [List.append_assoc] at hc'
    obtain ⟨e', hv', hrest'⟩ := Cursor.exists_passes hc' hopen
    have hpeek' : e'.peek = w.headD t := Cursor.peek_of_rest_append hrest'
    obtain ⟨f, hf, hd⟩ := hb.forced e' ts' hrest'
    refine ⟨f, ?_, hd⟩
    rw [Statement.all_of_ok (hs c' e' hv' (Or.inl (hpeek'.trans hpeek.symm))), hf]
    rfl
  · obtain ⟨u, hu, hall⟩ := hb.viable
    refine ⟨u, hu, fun c' hc' hstop => ?_⟩
    rw [List.append_assoc] at hc'
    obtain ⟨e', hv', _⟩ := Cursor.exists_passes (c := c') (w := v)
      (v := (w ++ u) ++ [c'.stop]) (by simp [Cursor.rest, hc']) hopen
    have hahead : e'.ahead = w ++ u := Cursor.ahead_of_passes hv' hc'
    have hnext : e'.peek = e.peek ∨ m.Neutral e'.peek := by
      rw [Cursor.peek, hahead, hv'.stop, hpeek]
      cases w with
      | nil =>
        cases u with
        | nil => exact Or.inr hstop
        | cons x u => exact Or.inr (hu x (by simp)).1
      | cons x w => exact Or.inl rfl
    obtain ⟨ss, hss⟩ := hall e' hahead (by rw [hv'.stop]; exact hstop)
    rw [Statement.all_of_ok (hs c' e' hv' hnext), hss]
    exact ⟨s :: ss, rfl⟩

/-- Statements fail at the first token that none could go on with. -/
theorem all_blamesFirst {c : Cursor} {f : Failure}
    (h : (Statement.all (Rules.standard m) room c).2 = .error f) :
    ∃ w t ts, c.rest = w ++ t :: ts ∧ Blames m room w t f.diagnostic := by
  induction hn : c.remaining using Nat.strongRecOn generalizing c with
  | ind n ih =>
    by_cases hc : c.ahead = []
    · rw [Statement.all_of_nil hc] at h
      cases h
    cases hr : Statement.read (Rules.standard m) room c with
    | error g =>
      rw [Statement.all_of_error hc hr] at h
      cases h
      obtain ⟨w, t, ts, hrest, hb, hcomp⟩ := Statement.blamesFirst_read c _ hr
      refine ⟨w, t, ts, hrest, blames_of_read ?_ hb ?_⟩
      · rw [← Cursor.peek_of_rest_append hrest]
        cases hend : c.peek.isEnd with
        | false => rfl
        | true => exact absurd (Cursor.ahead_eq_nil hend) hc
      · cases w with
        | nil => exact Statement.completable_read
        | cons x w => exact hcomp (by simp)
    | ok r =>
      obtain ⟨s, e⟩ := r
      have hlt := remaining_lt (Statement.advances_read _ _) hr
      rw [Statement.all_of_ok hr] at h
      cases hall : (Statement.all (Rules.standard m) room e).2 with
      | ok ss =>
        rw [hall] at h
        cases h
      | error g =>
        rw [hall] at h
        cases h
        obtain ⟨v, hv, hs⟩ := Statement.stableAt_read c s e hr
        obtain ⟨w, t, ts, hrest, hb⟩ := ih e.remaining (by omega) hall rfl
        exact ⟨v ++ w, t, ts, by rw [hv.rest_eq, hrest, List.append_assoc],
          blames_of_first hv hs hrest hb⟩

/-- A program that cannot be read is faulted at the token `t` in the place `i`, not after the
first that closes the input.  The tokens before it begin some program, and no list that goes on
with it is one: all of them have the same fault. -/
theorem ofTokens_blamesFirst (config : Config) (ts : List Token) (d : Diagnostic)
    (h : ofTokens config ts = .error d) :
    ∃ i t, i ≤ (ts.takeWhile (fun t => !t.isEnd)).length ∧
      (ts ++ Cursor.closure ts)[i]? = some t ∧
      d.fault.token? = some t ∧ d.position = t.span.start ∧
      (∃ u p, ofTokens config (ts.take i ++ u) = .ok p) ∧
      (i < ts.length → ∀ ts', ts'.take (i + 1) = ts.take (i + 1) →
        ofTokens config ts' = .error d) := by
  rw [ofTokens_eq] at h
  cases hall : (Statement.all (Rules.standard config.matching) config.maxDepth
    (Cursor.ofTokens ts)).2 with
  | ok ss =>
    rw [hall] at h
    cases h
  | error f =>
    rw [hall] at h
    cases h
    obtain ⟨w, t, us, hrest, hb⟩ := all_blamesFirst hall
    have hahead := Cursor.ahead_ofTokens ts
    have hlength : w.length ≤ (ts.takeWhile (fun t => !t.isEnd)).length := by
      have hl := congrArg List.length hrest
      simp only [Cursor.rest, hahead, List.length_append, List.length_cons, List.length_nil] at hl
      omega
    have hprefix : ts.takeWhile (fun t => !t.isEnd) ++ ts.dropWhile (fun t => !t.isEnd) = ts :=
      List.takeWhile_append_dropWhile
    have hw : ts.take w.length = w := by
      have hl := congrArg (List.take w.length) hrest
      rw [Cursor.rest, hahead, List.take_append_of_le_length hlength, List.take_left] at hl
      rw [← hprefix, List.take_append_of_le_length hlength, hl]
    have hopen : ∀ x ∈ w, x.isEnd = false := by
      intro x hx
      have hmem : x ∈ (ts.takeWhile (fun t => !t.isEnd)).take w.length := by
        rw [← List.take_append_of_le_length hlength, hprefix, hw]
        exact hx
      exact Cursor.isEnd_of_mem_takeWhile (List.mem_of_mem_take hmem)
    have hget : (ts ++ Cursor.closure ts)[w.length]? = some t := by
      rw [← Cursor.tokens_ofTokens, Cursor.tokens_eq, Cursor.behind_ofTokens, hrest]
      simp
    refine ⟨w.length, t, hlength, hget, hb.token, hb.position, ?_, fun hlt ts' hts' => ?_⟩
    · obtain ⟨u, hu, hviable⟩ := hb.viable
      have hopen' : ∀ x ∈ w ++ u, x.isEnd = false := by
        intro x hx
        rcases List.mem_append.1 hx with hx | hx
        · exact hopen x hx
        · exact (hu x hx).2
      obtain ⟨ss, hss⟩ := hviable (Cursor.ofTokens (w ++ u))
        (Cursor.ahead_ofTokens_of_open hopen')
        (by rw [Cursor.stop_ofTokens_of_open hopen']; exact Matching.neutral_endAt _ _)
      exact ⟨u, ⟨ss⟩, by rw [hw, ofTokens_eq, hss]⟩
    · have ht : ts.take (w.length + 1) = w ++ [t] := by
        rw [List.getElem?_append_left hlt] at hget
        rw [List.take_add_one, hw, hget]
        rfl
      have hsplit : ts' = w ++ t :: ts'.drop (w.length + 1) := by
        have hjoin := List.take_append_drop (w.length + 1) ts'
        rw [hts', ht] at hjoin
        simpa using hjoin.symm
      obtain ⟨vs, hvs⟩ := Cursor.rest_ofTokens_append hopen t (ts'.drop (w.length + 1))
      rw [← hsplit] at hvs
      obtain ⟨g, hg, hd⟩ := hb.forced (Cursor.ofTokens ts') vs hvs
      rw [ofTokens_eq, hg, ← hd]

/-- A group that an equals sign stands in. -/
def unclosed : List Token := [Token.sample .openParen, Token.sample .identifier, Token.sample .equals]

theorem ofTokens_blamesFirst_unclosed :
    ∃ i t, i ≤ (unclosed.takeWhile (fun t => !t.isEnd)).length ∧
      (unclosed ++ Cursor.closure unclosed)[i]? = some t ∧
      (Diagnostic.unexpected (Token.sample .equals) .groupNotClosed).fault.token? = some t ∧
      (Diagnostic.unexpected (Token.sample .equals) .groupNotClosed).position = t.span.start ∧
      (∃ u p, ofTokens {} (unclosed.take i ++ u) = .ok p) ∧
      (i < unclosed.length → ∀ ts', ts'.take (i + 1) = unclosed.take (i + 1) →
        ofTokens {} ts' = .error (.unexpected (Token.sample .equals) .groupNotClosed)) :=
  ofTokens_blamesFirst {} unclosed _ (by decide +kernel)

end Program
end LetArith
