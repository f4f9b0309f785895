import LetArith.Proofs.Grammar.Nesting
import Mathlib.Data.List.Perm.Subperm
import Mathlib.Data.List.Nodup

/-! The limit on groups inside each other.  With less room a parser does the same as with more, up
to the first group that there is no room for, and there it gives up; so that the limit is only
ever met at that group, and groups beside each other do not add up. -/

namespace LetArith

/-- `Overflows room moves before i t`: the group that the token `t` with the index `i` opens is the
first to be entered when there is no room left, which is so after the moves `before`. -/
structure Overflows (room : Nat) (moves before : List Move) (i : Nat) (t : Token) : Prop where
  next : before ++ [.enter i t] <+: moves
  full : Move.groups.Leaves room before
  first : Move.groups.depth before ≤ room

namespace Overflows

variable {room : Nat} {moves before : List Move} {i : Nat} {t : Token}

theorem append (h : Overflows room moves before i t) (after : List Move) :
    Overflows room (moves ++ after) before i t :=
  ⟨h.next.trans (List.prefix_append _ _), h.full, h.first⟩

theorem prepend (h : Overflows room moves before i t) {earlier : List Move}
    (hbalanced : Move.groups.Balanced earlier) (hdepth : Move.groups.depth earlier ≤ room) :
    Overflows room (earlier ++ moves) (earlier ++ before) i t where
  next := by
    rw [List.append_assoc]
    exact (List.prefix_append_right_inj earlier).2 h.next
  full := h.full.append hbalanced
  first := by
    rw [Brackets.depth_append hbalanced]
    exact Nat.max_le.2 ⟨hdepth, h.first⟩

theorem enter (h : Overflows room moves before i t) (j : Nat) (u : Token) :
    Overflows (room + 1) (.enter j u :: moves) (.enter j u :: before) i t where
  next := List.cons_prefix_cons.2 ⟨rfl, h.next⟩
  full := h.full.cons rfl rfl
  first := by
    rw [Brackets.depth_open rfl rfl]
    exact Nat.succ_le_succ h.first

theorem lt_depth (h : Overflows room moves before i t) : room < Move.groups.depth moves := by
  obtain ⟨after, rfl⟩ := h.next
  rw [List.append_assoc]
  exact h.full.lt_depth rfl rfl

theorem mem (h : Overflows room moves before i t) : .enter i t ∈ moves :=
  h.next.mem (List.mem_append_right before (List.mem_singleton_self _))

end Overflows

namespace Move

theorem countP_opens (ms : List Move) :
    ms.countP groups.opens = (indices (ms.filter groups.opens)).length := by
  induction ms with
  | nil => rfl
  | cons move ms ih =>
    cases move with
    | enter i t =>
      rw [List.countP_cons_of_pos rfl, List.filter_cons_of_pos rfl, indices_enter,
        List.length_cons, ih]
    | leave => rw [List.countP_cons_of_neg (by decide), List.filter_cons_of_neg (by decide), ih]
    | blame i =>
      rw [List.countP_cons_of_neg (by simp [groups]), List.filter_cons_of_neg (by simp [groups]), ih]

theorem exists_enter_of_mem {ms : List Move} {i : Nat}
    (h : i ∈ indices (ms.filter groups.opens)) : ∃ t, enter i t ∈ ms := by
  obtain ⟨move, hmove, hi⟩ := List.mem_filterMap.1 h
  obtain ⟨hmem, hopen⟩ := List.mem_filter.1 hmove
  cases move with
  | enter j t =>
    cases hi
    exact ⟨t, hmem⟩
  | leave => cases hopen
  | blame j => cases hopen

end Move

namespace Traced

variable {α β : Type} {room : Nat}

/-- The moves and the result with `room`, and those with more. -/
inductive Cut (room : Nat) {α : Type} : List Move → Except Failure (α × Cursor) →
    List Move → Except Failure (α × Cursor) → Prop where
  | same (moves : List Move) (result : Except Failure (α × Cursor)) :
      Cut room moves result moves result
  | cut {before moves : List Move} {i : Nat} {t : Token} {f : Failure}
      (result : Except Failure (α × Cursor)) (overflows : Overflows room moves before i t)
      (refused : f.diagnostic = .unexpected t .nestedTooDeeply) :
      Cut room (before ++ [.blame i]) (.error f) moves result

def CutAt (room : Nat) (p p' : Traced α) (c : Cursor) : Prop :=
  Cut room (p.moves c) (p.parse c) (p'.moves c) (p'.parse c)

theorem cutAt_ofPlace {p p' : Cursor → Traced α} {c : Cursor} :
    CutAt room (ofPlace p) (ofPlace p') c ↔ CutAt room (p c) (p' c) c := Iff.rfl

theorem cutAt_self (p : Traced α) (c : Cursor) : CutAt room p p c := .same _ _

theorem Cut.prepend {ms ms' earlier : List Move} {r r' : Except Failure (α × Cursor)}
    (h : Cut room ms r ms' r') (hbalanced : Move.groups.Balanced earlier)
    (hdepth : Move.groups.depth earlier ≤ room) : Cut room (earlier ++ ms) r (earlier ++ ms') r' := by
  cases h with
  | same => exact .same _ _
  | cut _ overflows refused =>
    rw [← List.append_assoc]
    exact .cut _ (overflows.prepend hbalanced hdepth) refused

theorem CutAt.bind {p p' : Traced α} {q q' : α → Traced β} {c : Cursor} (h : CutAt room p p' c)
    (hs : SoundAt room p c) (hq : ∀ a d, p.parse c = .ok (a, d) → CutAt room (q a) (q' a) d) :
    CutAt room (p >>= q) (p' >>= q') c := by
  unfold CutAt at h ⊢
  generalize hms : p.moves c = ms at h
  generalize hr : p.parse c = r at h
  generalize hms' : p'.moves c = ms' at h
  generalize hr' : p'.parse c = r' at h
  cases h with
  | same =>
    cases r with
    | error f =>
      rw [moves_bind_of_error hr, moves_bind_of_error hr', hms, hms', parse_bind, parse_bind,
        Parse.bind_of_error hr, Parse.bind_of_error hr']
      exact .same _ _
    | ok r =>
      obtain ⟨a, d⟩ := r
      rw [moves_bind_of_ok hr, moves_bind_of_ok hr', hms, hms', parse_bind, parse_bind,
        Parse.bind_of_ok hr, Parse.bind_of_ok hr']
      rw [← hms]
      exact (hq a d hr).prepend (hs.ok a d hr).balanced hs.depth
  | cut _ overflows refused =>
    rw [moves_bind_of_error hr, hms, parse_bind, Parse.bind_of_error hr]
    rw [← hms'] at overflows
    exact .cut _ (overflows.append _) refused

theorem cutAt_refused {inner : Traced Expr} {c : Cursor} :
    CutAt 0 (token Expr.refusedGroup) (group inner) c := by
  have hfirst : Overflows 0 ((group inner).moves c) [] c.position c.peek :=
    ⟨⟨_, rfl⟩, rfl, Nat.le_refl 0⟩
  exact .cut (f := ⟨.unexpected c.peek .nestedTooDeeply, c.next, 1⟩) _ hfirst rfl

theorem cutAt_group {inner inner' : Traced Expr} {c : Cursor} (h : CutAt room inner inner' c.next)
    (hs : SoundAt room inner c.next) : CutAt (room + 1) (group inner) (group inner') c := by
  have hinside : CutAt room (inside inner) (inside inner') c.next :=
    h.bind hs (fun e d _ => cutAt_self _ d)
  unfold CutAt at hinside ⊢
  rw [moves_group, moves_group, parse_group, parse_group]
  unfold Parse.inGroup
  generalize (inside inner).moves c.next = ms at hinside
  generalize (inside inner).parse c.next = r at hinside
  generalize (inside inner').moves c.next = ms' at hinside
  generalize (inside inner').parse c.next = r' at hinside
  cases hinside with
  | same => exact .same _ _
  | @cut before moves i t f _ overflows refused =>
    dsimp only
    rw [List.append_nil, ← List.cons_append]
    exact .cut _ ((overflows.enter _ _).append _) refused

section Chain

variable {operator? : Token → Option Operator} {operand operand' : Traced Expr}
  (hop : ∀ c, CutAt room operand operand' c) (hs : ∀ c, SoundAt room operand c)

include hop hs

theorem cutAt_chainFrom (n : Nat) (left : Expr) (c : Cursor) :
    CutAt room (chainFrom operator? operand n left) (chainFrom operator? operand' n left) c := by
  induction n generalizing left c with
  | zero => exact cutAt_self _ c
  | succ n ih =>
    rw [chainFrom, chainFrom, cutAt_ofPlace]
    cases operator? c.peek with
    | none => exact cutAt_self _ c
    | some op =>
      exact (cutAt_self _ c).bind (sound_advance c)
        (fun _ d _ => (hop d).bind (hs d) (fun _ e _ => ih _ e))

theorem cutAt_chain (c : Cursor) :
    CutAt room (chain operator? operand) (chain operator? operand') c :=
  (hop c).bind (hs c) (fun left d _ => cutAt_chainFrom hop hs (d.remaining + 1) left d)

end Chain

section Rules

variable {m : Matching}

theorem cutAt_additive {primary primary' : Traced Expr} (hp : ∀ c, CutAt room primary primary' c)
    (hs : ∀ c, SoundAt room primary c) (c : Cursor) :
    CutAt room (additive (Rules.standard m) primary) (additive (Rules.standard m) primary') c :=
  cutAt_chain (cutAt_chain hp hs) (sound_chain hs) c

theorem cutAt_operand {group group' : Traced Expr} {c : Cursor} (hg : CutAt room group group' c) :
    CutAt room (operand (Rules.standard m) group) (operand (Rules.standard m) group') c := by
  rw [operand, operand, cutAt_ofPlace]
  cases (Rules.standard m).operand? c.peek.kind with
  | none => exact cutAt_self _ c
  | some rule =>
    cases rule with
    | name => exact cutAt_self _ c
    | number => exact cutAt_self _ c
    | group => exact hg

theorem cutAt_primary {room room' : Nat} (h : room ≤ room') (c : Cursor) :
    CutAt room (primary (Rules.standard m) room) (primary (Rules.standard m) room') c := by
  induction room generalizing room' c with
  | zero =>
    cases room' with
    | zero => exact cutAt_self _ c
    | succ room' => exact cutAt_operand cutAt_refused
  | succ room ih =>
    obtain ⟨k, rfl⟩ : ∃ k, room' = k + 1 := ⟨room' - 1, by omega⟩
    have hp := fun c => ih (Nat.le_of_succ_le_succ h) c
    have hs := fun c => sound_primary (m := m) room c
    exact cutAt_operand (cutAt_group (cutAt_additive hp hs c.next) (sound_additive hs c.next))

variable {room' : Nat} (h : room ≤ room')

include h

theorem cutAt_expression (c : Cursor) :
    CutAt room (expression (Rules.standard m) room) (expression (Rules.standard m) room') c :=
  cutAt_additive (cutAt_primary h) (sound_primary room) c

theorem cutAt_value (constant : Bool) (name : String) (c : Cursor) :
    CutAt room (value (Rules.standard m) room constant name)
      (value (Rules.standard m) room' constant name) c := by
  rw [value, value, cutAt_ofPlace]
  by_cases hk : c.peek.kind = .semicolon
  · rw [if_pos hk, if_pos hk]
    exact cutAt_self _ c
  · rw [if_neg hk, if_neg hk]
    refine (cutAt_self _ c).bind (sound_expect (by decide) (by decide) c) (fun _ d _ => ?_)
    exact (cutAt_expression h d).bind (sound_expression room d) (fun _ e _ => cutAt_self _ e)

theorem cutAt_declaration (c : Cursor) :
    CutAt room (declaration (Rules.standard m) room) (declaration (Rules.standard m) room') c :=
  (cutAt_self _ c).bind (sound_advance c) (fun _ d _ =>
    (cutAt_self _ d).bind (sound_expect (by decide) (by decide) d) (fun _ e _ =>
      cutAt_value h _ _ e))

theorem cutAt_statement (c : Cursor) :
    CutAt room (statement (Rules.standard m) room) (statement (Rules.standard m) room') c := by
  rw [statement, statement, cutAt_ofPlace]
  by_cases hk : (Rules.standard m).declares c.peek.kind = true
  · rw [if_pos hk, if_pos hk]
    exact (cutAt_declaration h c).bind (sound_declaration room c) (fun _ d _ => cutAt_self _ d)
  · rw [if_neg hk, if_neg hk]
    exact (cutAt_expression h c).bind (sound_expression room c) (fun _ d _ => cutAt_self _ d)

theorem cutAt_statements (n : Nat) (c : Cursor) :
    CutAt room (statements (Rules.standard m) room n) (statements (Rules.standard m) room' n) c := by
  induction n generalizing c with
  | zero => exact cutAt_self _ c
  | succ n ih =>
    rw [statements, statements, cutAt_ofPlace]
    by_cases hend : c.atEnd = true
    · rw [if_pos hend, if_pos hend]
      exact cutAt_self _ c
    · rw [if_neg hend, if_neg hend]
      exact (cutAt_statement h c).bind (sound_statement room c) (fun _ d _ =>
        (ih d).bind (sound_statements room n d) (fun _ e _ => cutAt_self _ e))

end Rules

end Traced

namespace Program

variable {config : Config} {ts : List Token}

theorem sound_traced (config : Config) (ts : List Token) :
    Traced.SoundAt config.maxDepth (traced config ts) (Cursor.ofTokens ts) :=
  Traced.sound_statements _ _ _

theorem kind_of_mem_closure {t : Token} (h : t ∈ Cursor.closure ts) : t.kind = .endOfInput := by
  unfold Cursor.closure at h
  split at h
  · cases h
  · rw [List.mem_singleton.1 h]
    rfl

/-- Groups are entered at tokens of the list, never at one that was put behind it. -/
theorem getElem?_of_enter {i : Nat} {t : Token} (h : .enter i t ∈ moves config ts) :
    ts[i]? = some t ∧ t.kind = .openParen := by
  obtain ⟨ht, hk⟩ := (sound_traced config ts).opening i t h
  refine ⟨?_, hk⟩
  rw [Cursor.tokens_ofTokens] at ht
  by_cases hi : i < ts.length
  · rwa [List.getElem?_append_left hi] at ht
  · rw [List.getElem?_append_right (Nat.le_of_not_lt hi)] at ht
    cases hk.symm.trans (kind_of_mem_closure (List.mem_of_getElem? ht))

/-- No more groups are entered than there are tokens. -/
theorem countP_enter_le (config : Config) (ts : List Token) :
    (moves config ts).countP Move.groups.opens ≤ ts.length := by
  have hsub : (Move.indices ((moves config ts).filter Move.groups.opens)).Sublist
      (Move.indices (moves config ts)) := List.filter_sublist.filterMap _
  have hnodup : (Move.indices ((moves config ts).filter Move.groups.opens)).Nodup :=
    ((sound_traced config ts).rising.sublist hsub).imp Nat.ne_of_lt
  have hrange : Move.indices ((moves config ts).filter Move.groups.opens) ⊆
      List.range ts.length := by
    intro i hi
    obtain ⟨t, ht⟩ := Move.exists_enter_of_mem hi
    have hget := (getElem?_of_enter ht).1
    exact List.mem_range.2 (List.getElem?_eq_some_iff.1 hget).1
  rw [Move.countP_opens]
  simpa using (List.subperm_of_subset hnodup hrange).length_le

theorem blames_of_error {d : Diagnostic} (h : ofTokens config ts = .error d) :
    ∃ before i t, moves config ts = before ++ [.blame i] ∧
      (ts ++ Cursor.closure ts)[i]? = some t ∧ d.fault.token? = some t ∧
      (d = .unexpected t .nestedTooDeeply → Move.groups.Leaves config.maxDepth before) := by
  rw [ofTokens_eq_traced] at h
  cases hp : (traced config ts).parse (Cursor.ofTokens ts) with
  | ok r =>
    rw [hp] at h
    cases h
  | error f =>
    rw [hp] at h
    cases h
    have hgives := (sound_traced config ts).error f hp
    rw [Traced.GivesUp, Cursor.tokens_ofTokens] at hgives
    exact hgives

/-- With less room the same is done as with more, or a group is refused. -/
theorem cut_of_le (config : Config) (ts : List Token) {d d' : Nat} (h : d ≤ d') :
    (moves { config with maxDepth := d } ts = moves { config with maxDepth := d' } ts ∧
        ofTokens { config with maxDepth := d } ts = ofTokens { config with maxDepth := d' } ts) ∨
      ∃ before i t, Overflows d (moves { config with maxDepth := d' } ts) before i t ∧
        moves { config with maxDepth := d } ts = before ++ [.blame i] ∧
        ofTokens { config with maxDepth := d } ts = .error (.unexpected t .nestedTooDeeply) := by
  have hcut : Traced.CutAt d (traced { config with maxDepth := d } ts)
      (traced { config with maxDepth := d' } ts) (Cursor.ofTokens ts) :=
    Traced.cutAt_statements h _ _
  unfold Traced.CutAt at hcut
  rw [ofTokens_eq_traced, ofTokens_eq_traced]
  unfold moves
  generalize (traced { config with maxDepth := d } ts).moves (Cursor.ofTokens ts) = ms at hcut ⊢
  generalize (traced { config with maxDepth := d } ts).parse (Cursor.ofTokens ts) = r at hcut ⊢
  generalize (traced { config with maxDepth := d' } ts).moves (Cursor.ofTokens ts) = ms' at hcut ⊢
  generalize (traced { config with maxDepth := d' } ts).parse (Cursor.ofTokens ts) = r' at hcut ⊢
  cases hcut with
  | same => exact Or.inl ⟨rfl, rfl⟩
  | cut _ overflows refused =>
    exact Or.inr ⟨_, _, _, overflows, rfl, congrArg Except.error refused⟩

theorem depth_moves_le (config : Config) (ts : List Token) :
    Move.groups.depth (moves config ts) ≤ config.maxDepth := (sound_traced config ts).depth

/-- A limit that is no less than the number of tokens is never met. -/
theorem unlimited {limit d : Nat} (hlimit : ts.length ≤ limit) (h : limit ≤ d) :
    moves { config with maxDepth := limit } ts = moves { config with maxDepth := d } ts ∧
      ofTokens { config with maxDepth := limit } ts = ofTokens { config with maxDepth := d } ts := by
  rcases cut_of_le config ts h with hsame | ⟨before, i, t, hover, _, _⟩
  · exact hsame
  · have hlt := hover.lt_depth
    have hcount := countP_enter_le { config with maxDepth := d } ts
    have hdepth := Brackets.depth_le_countP (b := Move.groups)
      (l := moves { config with maxDepth := d } ts)
    omega

theorem ofTokens_of_depth_le {limit d : Nat} (hlimit : ts.length ≤ limit)
    (h : Move.groups.depth (moves { config with maxDepth := limit } ts) ≤ d) :
    ofTokens { config with maxDepth := d } ts = ofTokens { config with maxDepth := limit } ts := by
  rcases Nat.le_total limit d with hle | hle
  · exact (unlimited hlimit hle).2.symm
  · rcases cut_of_le config ts hle with ⟨_, hsame⟩ | ⟨_, _, _, hover, _, _⟩
    · exact hsame
    · exact absurd hover.lt_depth (Nat.not_lt.2 h)

theorem exists_overflows {limit d : Nat}
    (h : d < Move.groups.depth (moves { config with maxDepth := limit } ts)) :
    ∃ before i t, Overflows d (moves { config with maxDepth := limit } ts) before i t ∧
      moves { config with maxDepth := d } ts = before ++ [.blame i] ∧
      ofTokens { config with maxDepth := d } ts = .error (.unexpected t .nestedTooDeeply) := by
  have hle := depth_moves_le { config with maxDepth := limit } ts
  rcases cut_of_le config ts (Nat.le_of_lt (Nat.lt_of_lt_of_le h hle)) with ⟨hsame, _⟩ | hover
  · have hroom := depth_moves_le { config with maxDepth := d } ts
    rw [hsame] at hroom
    exact absurd h (Nat.not_lt.2 hroom)
  · exact hover

/-- Where a group was refused, more room leads on. -/
theorem blamed_lt {d d' : Nat} (h : d < d') {t : Token}
    (ht : ofTokens { config with maxDepth := d } ts = .error (.unexpected t .nestedTooDeeply)) :
    ∃ i, Move.blamed? (moves { config with maxDepth := d } ts) = some i ∧ ts[i]? = some t ∧
      ((∃ p, ofTokens { config with maxDepth := d' } ts = .ok p) ∨
        ∃ e j u, ofTokens { config with maxDepth := d' } ts = .error e ∧
          Move.blamed? (moves { config with maxDepth := d' } ts) = some j ∧
          (ts ++ Cursor.closure ts)[j]? = some u ∧ e.fault.token? = some u ∧ i < j) := by
  rcases cut_of_le config ts (Nat.le_of_lt h) with ⟨hmoves, hsame⟩ | ⟨before, i, u, hover, hmoves, hu⟩
  · -- a group is refused where all the room is taken, which is not the same for both limits
    obtain ⟨before, i, u, hbefore, _, hu, hfull⟩ := blames_of_error ht
    obtain ⟨before', i', u', hbefore', _, hu', hfull'⟩ := blames_of_error (hsame.symm.trans ht)
    cases hu
    cases hu'
    rw [hbefore, hbefore'] at hmoves
    obtain ⟨rfl, _⟩ := List.append_inj' hmoves rfl
    have hd : Move.groups.Leaves d before := hfull rfl
    have hd' : Move.groups.Leaves d' before := hfull' rfl
    unfold Brackets.Leaves at hd hd'
    omega
  · rw [ht] at hu
    cases hu
    refine ⟨i, by rw [hmoves, Move.blamed?_append_blame], (getElem?_of_enter hover.mem).1, ?_⟩
    cases hok : ofTokens { config with maxDepth := d' } ts with
    | ok p => exact Or.inl ⟨p, rfl⟩
    | error e =>
      obtain ⟨before', j, u, hmoves', hu, hfault, _⟩ := blames_of_error hok
      refine Or.inr ⟨e, j, u, rfl, by rw [hmoves', Move.blamed?_append_blame], hu, hfault, ?_⟩
      have hrising := (sound_traced { config with maxDepth := d' } ts).rising
      have henter := hover.mem
      unfold moves at hmoves' henter
      rw [hmoves', Move.indices_append] at hrising
      rw [hmoves'] at henter
      have hmem : i ∈ Move.indices before' := by
        rcases List.mem_append.1 henter with henter | henter
        · exact List.mem_filterMap.2 ⟨_, henter, rfl⟩
        · simp at henter
      exact (List.pairwise_append.1 hrising).2.2 i hmem j (List.mem_singleton_self j)

/-- The limit on groups inside each other.  With a limit that cannot be met, programs are read as
they are without one.  Any other limit gives the same unless more groups than it allows are open
at once, and then the first of them that is too many is refused, with a message of its own. -/
theorem ofTokens_maxDepth (config : Config) (ts : List Token) :
    (∀ limit d, ts.length ≤ limit →
      (Move.groups.depth (moves { config with maxDepth := limit } ts) ≤ d →
        ofTokens { config with maxDepth := d } ts = ofTokens { config with maxDepth := limit } ts) ∧
      (d < Move.groups.depth (moves { config with maxDepth := limit } ts) →
        ∃ before i t, Overflows d (moves { config with maxDepth := limit } ts) before i t ∧
          ts[i]? = some t ∧ t.kind = .openParen ∧
          Move.blamed? (moves { config with maxDepth := d } ts) = some i ∧
          ofTokens { config with maxDepth := d } ts =
            .error (.unexpected t .nestedTooDeeply) ∧
          (Diagnostic.unexpected t .nestedTooDeeply).fault.summary =
            "expression nested too deeply")) ∧
    (∀ d d', d < d' →
      (∀ p, ofTokens { config with maxDepth := d } ts = .ok p →
        ofTokens { config with maxDepth := d' } ts = .ok p) ∧
      (∀ e, ofTokens { config with maxDepth := d } ts = .error e →
        (∀ t, e ≠ .unexpected t .nestedTooDeeply) →
        ofTokens { config with maxDepth := d' } ts = .error e) ∧
      (∀ t, ofTokens { config with maxDepth := d } ts = .error (.unexpected t .nestedTooDeeply) →
        ∃ i, Move.blamed? (moves { config with maxDepth := d } ts) = some i ∧ ts[i]? = some t ∧
          ((∃ p, ofTokens { config with maxDepth := d' } ts = .ok p) ∨
            ∃ e j u, ofTokens { config with maxDepth := d' } ts = .error e ∧
              Move.blamed? (moves { config with maxDepth := d' } ts) = some j ∧
              (ts ++ Cursor.closure ts)[j]? = some u ∧ e.fault.token? = some u ∧ i < j))) := by
  refine ⟨fun limit d hlimit => ⟨ofTokens_of_depth_le hlimit, fun h => ?_⟩,
    fun d d' h => ⟨fun p hp => ?_, fun e he hne => ?_, fun t ht => blamed_lt h ht⟩⟩
  · obtain ⟨before, i, t, hover, hmoves, ht⟩ := exists_overflows h
    obtain ⟨hget, hk⟩ := getElem?_of_enter hover.mem
    exact ⟨before, i, t, hover, hget, hk, by rw [hmoves, Move.blamed?_append_blame], ht, rfl⟩
  · rcases cut_of_le config ts (Nat.le_of_lt h) with ⟨_, hsame⟩ | ⟨_, _, t, _, _, ht⟩
    · rw [← hsame, hp]
    · cases hp.symm.trans ht
  · rcases cut_of_le config ts (Nat.le_of_lt h) with ⟨_, hsame⟩ | ⟨_, _, t, _, _, ht⟩
    · rw [← hsame, he]
    · cases he.symm.trans ht
      exact absurd rfl (hne t)

/-- A group in a group, and another group beside them. -/
def beside : List Token :=
  [⟨.openParen, "(", Span.null⟩, ⟨.openParen, "(", Span.null⟩, ⟨.identifier, "a", Span.null⟩,
    ⟨.closeParen, ")", Span.null⟩, ⟨.closeParen, ")", Span.null⟩, ⟨.openParen, "(", Span.null⟩,
    ⟨.identifier, "b", Span.null⟩, ⟨.closeParen, ")", Span.null⟩]

theorem ofTokens_maxDepth_beside :
    ofTokens { ({} : Config) with maxDepth := 2 } beside =
        ofTokens { ({} : Config) with maxDepth := 8 } beside ∧
      (∃ before i t, Overflows 1 (moves { ({} : Config) with maxDepth := 8 } beside) before i t ∧
        beside[i]? = some t ∧ t.kind = .openParen ∧
        Move.blamed? (moves { ({} : Config) with maxDepth := 1 } beside) = some i ∧
        ofTokens { ({} : Config) with maxDepth := 1 } beside =
          .error (.unexpected t .nestedTooDeeply) ∧
        (Diagnostic.unexpected t .nestedTooDeeply).fault.summary =
          "expression nested too deeply") ∧
      ofTokens { ({} : Config) with maxDepth := 3 } beside =
        .ok ⟨[.expression (.identifier "a"), .expression (.identifier "b")]⟩ := by
  have hlimit : beside.length ≤ 8 := by decide
  refine ⟨?_, ?_, ?_⟩
  · exact ((ofTokens_maxDepth {} beside).1 8 2 hlimit).1 (by decide +kernel)
  · exact ((ofTokens_maxDepth {} beside).1 8 1 hlimit).2 (by decide +kernel)
  · exact ((ofTokens_maxDepth {} beside).2 2 3 (by decide)).1 _ (by decide +kernel)

end Program

end LetArith
