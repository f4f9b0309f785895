import LetArith.Proofs.Grammar.Moves

/-! What the moves of a parser tell.  Groups are entered at the tokens that open them, one after the
other; no more of them are open at once than there is room for, and none when the parser is done;
and the token that a failure blames comes after all of them. -/

namespace LetArith

namespace Move

/-- The indices of the tokens at which moves are made. -/
def indices (moves : List Move) : List Nat := moves.filterMap index?

@[simp] theorem indices_nil : indices [] = [] := rfl
@[simp] theorem indices_append (ms ms' : List Move) :
    indices (ms ++ ms') = indices ms ++ indices ms' := List.filterMap_append
@[simp] theorem indices_enter (i : Nat) (t : Token) (ms : List Move) :
    indices (enter i t :: ms) = i :: indices ms := rfl
@[simp] theorem indices_leave (ms : List Move) : indices (leave :: ms) = indices ms := rfl
@[simp] theorem indices_blame (i : Nat) (ms : List Move) :
    indices (blame i :: ms) = i :: indices ms := rfl

end Move

namespace Traced

variable {α β : Type} {room : Nat}

/-- A success leads on over the same tokens and out of all groups, and leaves the moves behind. -/
structure Completes (c : Cursor) (moves : List Move) (d : Cursor) : Prop where
  tokens : d.tokens = c.tokens
  position : c.position ≤ d.position
  balanced : Move.groups.Balanced moves
  before : ∀ i ∈ Move.indices moves, i < d.position

/-- A failure is the last move, at the token it blames; and a group is refused only where there
is no room left. -/
def GivesUp (room : Nat) (c : Cursor) (moves : List Move) (f : Failure) : Prop :=
  ∃ before i t, moves = before ++ [.blame i] ∧ c.tokens[i]? = some t ∧
    f.diagnostic.fault.token? = some t ∧
    (f.diagnostic = .unexpected t .nestedTooDeeply → Move.groups.Leaves room before)

/-- The moves from a place: those of groups inside each other as far as there is room, at one
token after the other. -/
structure Sound (room : Nat) (c : Cursor) (moves : List Move)
    (result : Except Failure (α × Cursor)) : Prop where
  depth : Move.groups.depth moves ≤ room
  rising : (Move.indices moves).Pairwise (· < ·)
  after : ∀ i ∈ Move.indices moves, c.position ≤ i
  opening : ∀ i t, .enter i t ∈ moves → c.tokens[i]? = some t ∧ t.kind = .openParen
  ok : ∀ a d, result = .ok (a, d) → Completes c moves d
  error : ∀ f, result = .error f → GivesUp room c moves f

def SoundAt (room : Nat) (p : Traced α) (c : Cursor) : Prop :=
  Sound room c (p.moves c) (p.parse c)

theorem soundAt_ofPlace {p : Cursor → Traced α} {c : Cursor} :
    SoundAt room (ofPlace p) c ↔ SoundAt room (p c) c := Iff.rfl

theorem sound_nil {c d : Cursor} {w : List Token} (hw : c.Passes w d) (a : α) :
    Sound room c [] (.ok (a, d)) where
  depth := Nat.zero_le room
  rising := .nil
  after := fun _ hi => absurd hi List.not_mem_nil
  opening := fun _ _ h => absurd h List.not_mem_nil
  ok := by
    intro b e h
    cases h
    have hle := hw.position_eq
    exact ⟨hw.tokens_eq, by omega, Brackets.balanced_nil, fun _ hi => absurd hi List.not_mem_nil⟩
  error := fun f h => by cases h

theorem sound_blame {c : Cursor} {f : Failure} (hf : f.diagnostic.fault.token? = some c.peek)
    (hroom : f.diagnostic = .unexpected c.peek .nestedTooDeeply → room = 0) :
    Sound room c [.blame c.position] (.error f : Except Failure (α × Cursor)) where
  depth := Nat.le_trans Brackets.depth_le_countP (Nat.zero_le room)
  rising := List.pairwise_singleton _ _
  after := by simp
  opening := by simp
  ok := fun a d h => by cases h
  error := by
    intro g h
    cases h
    refine ⟨[], c.position, c.peek, rfl, c.getElem?_position, hf, fun hrefused => ?_⟩
    rw [hroom hrefused]
    rfl

/-- What comes after a success goes on from where that leads. -/
theorem Sound.append {c d : Cursor} {ms ms' : List Move} {a : α}
    {result : Except Failure (β × Cursor)} (h : Sound room c ms (.ok (a, d)))
    (h' : Sound room d ms' result) : Sound room c (ms ++ ms') result := by
  have hc := h.ok a d rfl
  have hmem : ∀ i, i ∈ Move.indices (ms ++ ms') ↔ i ∈ Move.indices ms ∨ i ∈ Move.indices ms' := by
    simp
  refine ⟨?_, ?_, fun i hi => ?_, fun i t hi => ?_, fun b e hok => ?_, fun f hf => ?_⟩
  · rw [Brackets.depth_append hc.balanced]
    exact Nat.max_le.2 ⟨h.depth, h'.depth⟩
  · rw [Move.indices_append]
    refine List.pairwise_append.2 ⟨h.rising, h'.rising, fun i hi j hj => ?_⟩
    exact Nat.lt_of_lt_of_le (hc.before i hi) (h'.after j hj)
  · rcases (hmem i).1 hi with hi | hi
    · exact h.after i hi
    · exact Nat.le_trans hc.position (h'.after i hi)
  · rcases List.mem_append.1 hi with hi | hi
    · exact h.opening i t hi
    · rw [← hc.tokens]
      exact h'.opening i t hi
  · have he := h'.ok b e hok
    refine ⟨he.tokens.trans hc.tokens, Nat.le_trans hc.position he.position,
      hc.balanced.append he.balanced, fun i hi => ?_⟩
    rcases (hmem i).1 hi with hi | hi
    · exact Nat.lt_of_lt_of_le (hc.before i hi) he.position
    · exact he.before i hi
  · obtain ⟨before, i, t, hmoves, ht, hfault, hrefused⟩ := h'.error f hf
    refine ⟨ms ++ before, i, t, ?_, by rw [← hc.tokens]; exact ht, hfault,
      fun hd => Brackets.Leaves.append hc.balanced (hrefused hd)⟩
    rw [hmoves, List.append_assoc]

/-- A failure is one whatever it was to give. -/
theorem Sound.error_cast {c : Cursor} {ms : List Move} {f : Failure}
    (h : Sound room c ms (.error f : Except Failure (α × Cursor))) :
    Sound room c ms (.error f : Except Failure (β × Cursor)) where
  depth := h.depth
  rising := h.rising
  after := h.after
  opening := h.opening
  ok := fun _ _ hok => by cases hok
  error := by
    intro g hg
    cases hg
    exact h.error f rfl

theorem sound_pure (a : α) (c : Cursor) : SoundAt room (pure a : Traced α) c :=
  sound_nil (.refl c) a

theorem sound_token {p : Parse α} {c : Cursor} (hok : ∀ a d, p c = .ok (a, d) → ∃ w, c.Passes w d)
    (herror : ∀ f, p c = .error f → f.diagnostic.fault.token? = some c.peek ∧
      (f.diagnostic = .unexpected c.peek .nestedTooDeeply → room = 0)) :
    SoundAt room (token p) c := by
  unfold SoundAt token
  dsimp only
  cases hp : p c with
  | ok r =>
    obtain ⟨w, hw⟩ := hok r.1 r.2 hp
    exact sound_nil hw r.1
  | error f => exact sound_blame (herror f hp).1 (herror f hp).2

theorem SoundAt.bind {p : Traced α} {q : α → Traced β} {c : Cursor} (hp : SoundAt room p c)
    (hq : ∀ a d, p.parse c = .ok (a, d) → SoundAt room (q a) d) : SoundAt room (p >>= q) c := by
  unfold SoundAt at hp ⊢
  rw [parse_bind]
  cases h : p.parse c with
  | error f =>
    rw [h] at hp
    rw [moves_bind_of_error h, Parse.bind_of_error h]
    exact hp.error_cast
  | ok r =>
    obtain ⟨a, d⟩ := r
    rw [h] at hp
    rw [moves_bind_of_ok h, Parse.bind_of_ok h]
    exact hp.append (hq a d h)

theorem sound_advance (c : Cursor) : SoundAt room (token Parse.advance) c :=
  sound_token (fun a d h => Parse.forward_advance c a d h) (fun f h => by cases h)

theorem sound_expect {kind : Kind} {complaint : Complaint} (hk : kind ≠ .endOfInput)
    (hcomplaint : complaint ≠ .nestedTooDeeply) (c : Cursor) :
    SoundAt room (token (Parse.expect kind complaint)) c := by
  refine sound_token (fun a d h => (Parse.advances_expect hk).forward c a d h) (fun f h => ?_)
  by_cases hkind : c.peek.kind = kind
  · rw [Parse.expect_eq_ok_iff.2 ⟨hkind, rfl, rfl⟩] at h
    cases h
  · simp only [Parse.expect, Cursor.expect, if_neg hkind] at h
    cases h
    refine ⟨rfl, fun hd => ?_⟩
    cases hd
    exact absurd rfl hcomplaint

theorem sound_inside {inner : Traced Expr} {c : Cursor} (hi : SoundAt room inner c) :
    SoundAt room (inside inner) c :=
  hi.bind (fun _ d _ => (sound_expect (by decide) (by decide) d).bind (fun _ _ _ => sound_pure _ _))

theorem moves_group (inner : Traced Expr) (c : Cursor) :
    (group inner).moves c = .enter c.position c.peek :: ((inside inner).moves c.next ++
      match (inside inner).parse c.next with
      | .ok _ => [.leave]
      | .error _ => []) := rfl

theorem parse_group (inner : Traced Expr) (c : Cursor) :
    (group inner).parse c = (inside inner).parse.inGroup c.next := Expr.groupOf_apply inner.parse c

/-- A group needs room for itself besides what is in it. -/
theorem sound_group {inner : Traced Expr} {c : Cursor} (hi : SoundAt room inner c.next)
    (hk : c.peek.kind = .openParen) : SoundAt (room + 1) (group inner) c := by
  have hpass : c.Passes [c.peek] c.next := .next_of_kind hk (by decide)
  have hposition : c.next.position = c.position + 1 := hpass.position_eq
  have htokens := hpass.tokens_eq
  have hs := sound_inside hi
  unfold SoundAt at hs ⊢
  rw [moves_group, parse_group]
  generalize (inside inner).moves c.next = ms at hs
  generalize hresult : (inside inner).parse c.next = result at hs
  -- the token that opens the group stands before all in it, which is left only after it
  generalize htail : (match result with | .ok _ => [Move.leave] | .error _ => []) = tail
  have hleave : tail = [] ∨ tail = [.leave] := by
    cases result <;> simp_all
  have hindices : Move.indices (.enter c.position c.peek :: (ms ++ tail)) =
      c.position :: Move.indices ms := by
    rcases hleave with rfl | rfl <;> simp
  refine ⟨?_, ?_, ?_, fun i t hmem => ?_, fun e d hok => ?_, fun f hf => ?_⟩
  · rw [Brackets.depth_open rfl rfl]
    refine Nat.succ_le_succ ?_
    rcases hleave with rfl | rfl
    · rw [List.append_nil]
      exact hs.depth
    · rw [Brackets.depth_concat rfl]
      exact hs.depth
  · rw [hindices, List.pairwise_cons]
    exact ⟨fun i hi => by have := hs.after i hi; omega, hs.rising⟩
  · rw [hindices]
    intro i hi
    rcases List.mem_cons.1 hi with rfl | hi
    · exact Nat.le_refl _
    · have := hs.after i hi
      omega
  · rcases List.mem_cons.1 hmem with heq | hmem
    · cases heq
      exact ⟨c.getElem?_position, hk⟩
    rcases List.mem_append.1 hmem with hmem | hmem
    · rw [← htokens]
      exact hs.opening i t hmem
    · rcases hleave with rfl | rfl <;> simp at hmem
  · rw [Parse.inGroup_eq_ok_iff, hresult] at hok
    subst hok
    subst htail
    obtain ⟨htokens', hle, hbalanced, hbefore⟩ := hs.ok e d rfl
    refine ⟨htokens'.trans htokens, by omega, hbalanced.group rfl rfl rfl rfl, ?_⟩
    rw [hindices]
    intro i hi
    rcases List.mem_cons.1 hi with rfl | hi
    · omega
    · exact hbefore i hi
  · cases result with
    | ok r => simp [Parse.inGroup, hresult] at hf
    | error g =>
      simp only [Parse.inGroup, hresult] at hf
      cases hf
      subst htail
      obtain ⟨before, i, t, rfl, ht, hfault, hrefused⟩ := hs.error g rfl
      exact ⟨.enter c.position c.peek :: before, i, t, by simp, by rw [← htokens]; exact ht, hfault,
        fun hd => (hrefused hd).cons rfl rfl⟩

section Chain

variable {operator? : Token → Option Operator} {operand : Traced Expr}
  (hop : ∀ c, SoundAt room operand c)

include hop

theorem sound_chainFrom (n : Nat) (left : Expr) (c : Cursor) :
    SoundAt room (chainFrom operator? operand n left) c := by
  induction n generalizing left c with
  | zero => exact sound_pure left c
  | succ n ih =>
    rw [chainFrom, soundAt_ofPlace]
    cases operator? c.peek with
    | none => exact sound_pure left c
    | some op => exact (sound_advance c).bind (fun _ d _ => (hop d).bind (fun _ e _ => ih _ e))

theorem sound_chain (c : Cursor) : SoundAt room (chain operator? operand) c :=
  (hop c).bind (fun left d _ => sound_chainFrom hop (d.remaining + 1) left d)

end Chain

section Rules

variable {m : Matching}

theorem sound_additive {primary : Traced Expr} (hp : ∀ c, SoundAt room primary c) (c : Cursor) :
    SoundAt room (additive (Rules.standard m) primary) c :=
  sound_chain (sound_chain hp) c

theorem sound_readNumber {c : Cursor} (hk : c.peek.kind = .number) :
    SoundAt room (token Expr.readNumber) c := by
  refine sound_token (fun a d h => Expr.advances_readNumber.forward c a d h) (fun f h => ?_)
  rw [Expr.readNumber_apply hk] at h
  split at h <;> cases h
  exact ⟨rfl, fun hd => by cases hd⟩

theorem sound_readIdentifier {c : Cursor} (hk : c.peek.kind = .identifier) :
    SoundAt room (token Expr.readIdentifier) c := by
  refine sound_token (fun a d h => Expr.advances_readIdentifier.forward c a d h) (fun f h => ?_)
  rw [Expr.readIdentifier_apply hk] at h
  cases h

theorem sound_notAnOperand (c : Cursor) :
    SoundAt room (token (Parse.fail (.unexpected c.peek .notAnOperand) : Parse α)) c := by
  refine sound_token (fun a e h => by cases h) (fun f h => ?_)
  cases h
  exact ⟨rfl, fun hd => by cases hd⟩

theorem sound_refusedGroup (c : Cursor) : SoundAt 0 (token Expr.refusedGroup) c := by
  refine sound_token (fun a d h => by cases h) (fun f h => ?_)
  cases h
  exact ⟨rfl, fun _ => rfl⟩

theorem sound_operand {group : Traced Expr} {c : Cursor}
    (hg : c.peek.kind = .openParen → SoundAt room group c) :
    SoundAt room (operand (Rules.standard m) group) c := by
  rw [operand, soundAt_ofPlace]
  cases h : (Rules.standard m).operand? c.peek.kind with
  | none => exact sound_notAnOperand c
  | some rule =>
    have hk := (Expr.standard_operand? rule).1 h
    cases rule with
    | name => exact sound_readIdentifier hk
    | number => exact sound_readNumber hk
    | group => exact hg hk

theorem sound_primary (room : Nat) (c : Cursor) :
    SoundAt room (primary (Rules.standard m) room) c := by
  induction room generalizing c with
  | zero => exact sound_operand (fun _ => sound_refusedGroup c)
  | succ room ih => exact sound_operand (fun hk => sound_group (sound_additive ih c.next) hk)

theorem sound_expression (room : Nat) (c : Cursor) :
    SoundAt room (expression (Rules.standard m) room) c :=
  sound_additive (sound_primary room) c

theorem sound_valueless (constant : Bool) (name : String) (c : Cursor) :
    SoundAt room (token (valueless constant name)) c := by
  refine sound_token (fun a d h => ?_) (fun f h => ?_)
  · refine Parse.Forward.bind Parse.forward_advance (fun t => ?_) c a d h
    cases constant with
    | true => intro c a d h; cases h
    | false => exact Parse.forward_pure _
  · cases constant with
    | true =>
      cases h
      exact ⟨rfl, fun hd => by cases hd⟩
    | false => cases h

theorem sound_value (room : Nat) (constant : Bool) (name : String) (c : Cursor) :
    SoundAt room (value (Rules.standard m) room constant name) c := by
  rw [value, soundAt_ofPlace]
  by_cases hk : c.peek.kind = .semicolon
  · rw [if_pos hk]
    exact sound_valueless constant name c
  · rw [if_neg hk]
    refine (sound_expect (by decide) (by decide) c).bind (fun _ d _ => ?_)
    refine (sound_expression room d).bind (fun _ e _ => ?_)
    exact (sound_expect (by decide) (by decide) e).bind (fun _ _ _ => sound_pure _ _)

theorem sound_declaration (room : Nat) (c : Cursor) :
    SoundAt room (declaration (Rules.standard m) room) c :=
  (sound_advance c).bind (fun _ d _ => (sound_expect (by decide) (by decide) d).bind
    (fun _ e _ => sound_value room _ _ e))

theorem sound_statement (room : Nat) (c : Cursor) :
    SoundAt room (statement (Rules.standard m) room) c := by
  rw [statement, soundAt_ofPlace]
  split
  · exact (sound_declaration room c).bind (fun _ _ _ => sound_pure _ _)
  · exact (sound_expression room c).bind (fun _ _ _ => sound_pure _ _)

theorem sound_statements (room n : Nat) (c : Cursor) :
    SoundAt room (statements (Rules.standard m) room n) c := by
  induction n generalizing c with
  | zero => exact sound_pure [] c
  | succ n ih =>
    rw [statements, soundAt_ofPlace]
    split
    · exact sound_pure [] c
    · exact (sound_statement room c).bind (fun _ d _ => (ih d).bind (fun _ _ _ => sound_pure _ _))

end Rules

end Traced

end LetArith
