import LetArith.Proofs.Grammar.Machine

/-! The depth of a parser.  It is raised before a group is refused, and a failure leaves groups
without lowering it; yet at every step of a run it is as much above its first value as groups are
open, so that a success finds it where it was. -/

namespace LetArith

open StateTransition

namespace Parse

variable {α β : Type}

/-- A parser that enters no group, and that passes tokens even where it fails. -/
structure Flat (p : Parse α) : Prop where
  forward : p.Forward
  error : ∀ c f, p c = .error f → f.opened = 0 ∧ ∃ w, c.Passes w f.cursor

theorem flat_pure (a : α) : (pure a : Parse α).Flat where
  forward := forward_pure a
  error := fun c f h => by cases h

theorem flat_fail (d : Diagnostic) : (fail d : Parse α).Flat where
  forward := fun c a e h => by cases h
  error := by
    intro c f h
    cases h
    exact ⟨rfl, [], .refl c⟩

theorem flat_advance : advance.Flat where
  forward := forward_advance
  error := fun c f h => by cases h

theorem flat_expect {kind : Kind} {complaint : Complaint} (hk : kind ≠ .endOfInput) :
    (expect kind complaint).Flat where
  forward := (advances_expect hk).forward
  error := by
    intro c f h
    unfold expect at h
    split at h
    · cases h
    · cases h
      exact ⟨rfl, [], .refl c⟩

theorem Flat.bind {p : Parse α} {q : α → Parse β} (hp : p.Flat) (hq : ∀ a, (q a).Flat) :
    (p >>= q).Flat where
  forward := hp.forward.bind (fun a => (hq a).forward)
  error := by
    intro c f h
    cases hpc : p c with
    | error g =>
      rw [bind_of_error hpc] at h
      cases h
      exact hp.error c _ hpc
    | ok r =>
      obtain ⟨a, d⟩ := r
      rw [bind_of_ok hpc] at h
      obtain ⟨u, hu⟩ := hp.forward c a d hpc
      obtain ⟨hopened, v, hv⟩ := (hq a).error d f h
      exact ⟨hopened, u ++ v, hu.trans hv⟩

end Parse

theorem Expr.flat_readIdentifier : readIdentifier.Flat :=
  (Parse.flat_expect (by decide)).bind (fun _ => Parse.flat_pure _)

theorem Expr.flat_readNumber : readNumber.Flat := by
  refine (Parse.flat_expect (by decide)).bind (fun t => ?_)
  cases Binary64.finiteOfText? t.text with
  | some x => exact Parse.flat_pure _
  | none => exact Parse.flat_fail _

theorem Traced.flat_valueless (constant : Bool) (name : String) :
    (valueless constant name).Flat := by
  refine Parse.flat_advance.bind (fun t => ?_)
  cases constant with
  | true => exact Parse.flat_fail _
  | false => exact Parse.flat_pure _

theorem Parser.exists_moved_of_run {α : Type} {parse : Parse α} (h : parse.Flat) (p : Parser) :
    ∃ w c, p.cursor.Passes w c ∧ (p.run fun _ _ => parse).2 = p.moved c := by
  cases hp : parse p.cursor with
  | ok r =>
    obtain ⟨a, c⟩ := r
    obtain ⟨w, hw⟩ := h.forward _ _ _ hp
    have hrun : (p.run fun _ _ => parse) = (.ok a, p.moved c) := run_of_ok hp
    exact ⟨w, c, hw, by rw [hrun]⟩
  | error f =>
    obtain ⟨hopened, w, hw⟩ := h.error _ _ hp
    have hrun : (p.run fun _ _ => parse) =
        (.error f.diagnostic, { p with cursor := f.cursor, depth := p.depth + f.opened }) :=
      run_of_error hp
    exact ⟨w, f.cursor, hw, by rw [hrun, hopened]; rfl⟩

namespace Machine

def openGroups (m : Machine) : Nat := m.frames.countP Frame.isGroup

/-- What a step does to the state of the parser: it passes tokens, or it enters a group, or it
leaves the innermost one. -/
inductive Change (m m' : Machine) : Prop where
  | moves (w : List Token) (c : Cursor) (passes : m.parser.cursor.Passes w c)
      (parser : m'.parser = m.parser.moved c) (groups : m'.openGroups = m.openGroups)
  | enters (rule : m.parser.rules.operand? m.parser.cursor.peek.kind = some .group)
      (parser : m'.parser =
        { m.parser.moved m.parser.cursor.next with depth := m.parser.depth + 1 })
      (groups : m'.openGroups = m.openGroups + 1)
      (fits : m'.parser.depth ≤ m.parser.maxDepth ∨ ∃ d, m'.control = .failed d)
  | leaves (w : List Token) (c : Cursor) (passes : m.parser.cursor.Passes w c)
      (parser : m'.parser = (m.parser.moved c).exitGroup)
      (groups : m.openGroups = m'.openGroups + 1)

section Change

variable {α : Type} {p : Parser} {m : Machine} {frames : List Frame}

theorem parser_after (give : α → Control) (frames : List Frame)
    (r : Except Diagnostic α × Parser) :
    (after give frames r).parser = r.2 ∧ (after give frames r).frames = frames := by
  obtain ⟨result, q⟩ := r
  cases result <;> exact ⟨rfl, rfl⟩

theorem enter_eq (p : Parser) (frames : List Frame) :
    (enter p frames).parser = { p.moved p.cursor.next with depth := p.depth + 1 } ∧
      (enter p frames).frames = .group :: frames ∧
      (p.depth + 1 ≤ p.maxDepth ∨ ∃ d, (enter p frames).control = .failed d) := by
  cases hentered : (p.moved p.cursor.next).enterGroup p.cursor.peek with
  | mk result q =>
    cases result with
    | error d =>
      obtain ⟨_, _, rfl⟩ := Parser.room_of_refused hentered
      rw [enter_of_refused hentered]
      exact ⟨rfl, rfl, .inr ⟨d, rfl⟩⟩
    | ok _ =>
      obtain ⟨hroom, rfl⟩ := Parser.room_of_entered hentered
      rw [enter_of_entered hentered]
      rw [Parser.room_moved] at hroom
      unfold Parser.room at hroom
      exact ⟨rfl, rfl, .inl (by omega)⟩

theorem change_of_eq {m' : Machine} (hparser : m'.parser = m.parser)
    (hgroups : m'.openGroups = m.openGroups) : m.Change m' :=
  .moves [] m.parser.cursor (.refl _) hparser hgroups

theorem change_of_next {m' : Machine} (hparser : m'.parser = m.parser.moved m.parser.cursor.next)
    (hgroups : m'.openGroups = m.openGroups) : m.Change m' := by
  obtain ⟨w, hw⟩ := Parse.forward_advance _ _ _ (Parse.advance_apply m.parser.cursor)
  exact .moves w _ hw hparser hgroups

theorem change_after {parse : Parse α} (h : parse.Flat) (give : α → Control)
    (hgroups : frames.countP Frame.isGroup = m.openGroups) :
    m.Change (after give frames (m.parser.run fun _ _ => parse)) := by
  obtain ⟨hparser, hframes⟩ := parser_after give frames (m.parser.run fun _ _ => parse)
  obtain ⟨w, c, hw, hrun⟩ := Parser.exists_moved_of_run h m.parser
  exact .moves w c hw (hparser.trans hrun) (by rw [openGroups, hframes, hgroups])

theorem change_enter (rule : m.parser.rules.operand? m.parser.cursor.peek.kind = some .group) :
    m.Change (enter m.parser m.frames) := by
  obtain ⟨hparser, hframes, hfits⟩ := enter_eq m.parser m.frames
  refine .enters rule hparser ?_ ?_
  · rw [openGroups, hframes, List.countP_cons_of_pos rfl, openGroups]
  · rwa [hparser]

theorem change_read (m : Machine) (tier : Tier) : m.Change (read m.parser m.frames tier) := by
  cases tier with
  | primary =>
    unfold read
    cases hrule : m.parser.rules.operand? m.parser.cursor.peek.kind with
    | none => exact change_of_eq rfl rfl
    | some rule =>
      cases rule with
      | name => exact change_after Expr.flat_readIdentifier _ rfl
      | number => exact change_after Expr.flat_readNumber _ rfl
      | group => exact change_enter hrule
  | _ => exact change_of_eq rfl rfl

theorem change_goOn (m : Machine) (tier : Tier) (left : Expr) :
    m.Change (goOn m.parser m.frames tier left) := by
  unfold goOn
  cases m.parser.operator? tier with
  | none => exact change_of_eq rfl rfl
  | some op => exact change_of_next rfl rfl

theorem change_close (e : Expr) (hframes : m.frames = .group :: frames) :
    m.Change (close m.parser frames e) := by
  have hgroups : m.openGroups = frames.countP Frame.isGroup + 1 := by
    rw [openGroups, hframes, List.countP_cons_of_pos rfl]
  unfold close
  cases hclose : m.parser.cursor.expect .closeParen .groupNotClosed with
  | error d => exact change_of_eq rfl (by rw [openGroups, openGroups, hframes])
  | ok r =>
    have hok : Parse.expect .closeParen .groupNotClosed m.parser.cursor = .ok r := by
      rw [Parse.expect, hclose]
    obtain ⟨w, hw⟩ := (Parse.flat_expect (by decide)).forward _ _ _ hok
    exact .leaves w r.2 hw rfl hgroups

theorem change_take {m' : Machine} {frame : Frame} (e : Expr) (hframes : m.frames = frame :: frames)
    (h : take m.parser frames e frame = some m') : m.Change m' := by
  have hgroups : frame.isGroup = false → frames.countP Frame.isGroup = m.openGroups := by
    intro hframe
    rw [openGroups, hframes, List.countP_cons_of_neg (by simp [hframe])]
  cases frame with
  | group =>
    cases h
    exact change_close e hframes
  | value constant name =>
    cases h
    exact change_after (Parse.flat_expect (by decide)) _ (hgroups rfl)
  | body done => cases h
  | _ =>
    cases h
    exact change_of_eq rfl (hgroups rfl)

theorem change_statement (m : Machine) : m.Change (statement m.parser m.frames) := by
  unfold statement
  split
  · exact change_of_next rfl rfl
  · exact change_of_eq rfl rfl

theorem change_value (m : Machine) (constant : Bool) (name : String) :
    m.Change (value m.parser m.frames constant name) := by
  unfold value
  split
  · exact change_after (Traced.flat_valueless constant name) _ rfl
  · exact change_after (Parse.flat_expect (by decide)) _ rfl

theorem change_round (m : Machine) (done : List Statement) :
    m.Change (round m.parser m.frames done) := by
  unfold round
  split <;> exact change_of_eq rfl rfl

/-- There is nothing else that a step does to the parser or to the groups. -/
theorem change_of_step {m' : Machine} (h : m.step = some m') : m.Change m' := by
  obtain ⟨control, p, frames⟩ := m
  cases control with
  | task t =>
    cases t with
    | read tier =>
      cases h
      exact change_read _ tier
    | goOn tier left =>
      cases h
      exact change_goOn _ tier left
  | give e =>
    cases frames with
    | nil => cases h
    | cons frame frames => exact change_take e rfl h
  | statement =>
    cases h
    exact change_statement _
  | declaring constant =>
    cases h
    exact change_after (Parse.flat_expect (by decide)) _ rfl
  | named constant name =>
    cases h
    exact change_value _ constant name
  | complete s =>
    cases frames with
    | nil => cases h
    | cons frame frames =>
      cases frame <;> cases h
      exact change_of_eq rfl rfl
  | program done =>
    cases h
    exact change_round _ done
  | finished done => cases h
  | failed d => cases h

end Change

section Balance

variable {α : Type} {m m' : Machine} {n : Nat}

/-- A step that opens a group raises the depth, one that closes a group lowers it, and no other
one touches it. -/
theorem Change.depth_eq (h : m.Change m') (hdepth : m.parser.depth = n + m.openGroups) :
    m'.parser.depth = n + m'.openGroups := by
  cases h with
  | moves w c _ hparser hgroups =>
    rw [hparser, hgroups]
    exact hdepth
  | enters _ hparser hgroups _ =>
    rw [hparser, hgroups]
    exact congrArg (· + 1) hdepth
  | leaves w c _ hparser hgroups =>
    rw [hparser]
    show m.parser.depth - 1 = _
    omega

theorem depth_of_reaches (hdepth : m.parser.depth = n + m.openGroups)
    (h : Reaches step m m') : m'.parser.depth = n + m'.openGroups := by
  induction h with
  | refl => exact hdepth
  | tail _ hstep ih => exact (change_of_step hstep).depth_eq ih

/-- The run from the machine on ends in the result `r`, and at each of its states, the last one
among them, the depth is as much above `n` as groups are open. -/
structure Balances (m : Machine) (give : α → Control) (n : Nat)
    (r : Except Diagnostic α × Parser) : Prop where
  steps : ∀ m', Reaches step m m' → m'.parser.depth = n + m'.openGroups
  ok : ∀ a q, r = (.ok a, q) → ⟨give a, q, []⟩ ∈ eval step m ∧ q.depth = n
  error : ∀ d q, r = (.error d, q) →
    ∃ left, ⟨.failed d, q, left⟩ ∈ eval step m ∧ q.depth = n + left.countP Frame.isGroup

theorem balances {give : α → Control} {r : Except Diagnostic α × Parser}
    (hdepth : m.parser.depth = n + m.openGroups) (hcomes : m.Comes give [] r)
    (hstop : ∀ a q, step ⟨give a, q, []⟩ = none) : m.Balances give n r where
  steps := fun m' h => depth_of_reaches hdepth h
  ok := by
    rintro a q rfl
    exact ⟨mem_eval.2 ⟨hcomes, hstop a q⟩, depth_of_reaches hdepth hcomes⟩
  error := by
    rintro d q rfl
    obtain ⟨left, hleft⟩ := hcomes
    exact ⟨left, mem_eval.2 ⟨hleft, rfl⟩, depth_of_reaches hdepth hleft⟩

theorem balances_read (p : Parser) (tier : Tier) :
    Balances ⟨.task (.read tier), p, []⟩ .give p.depth (p.run (Parser.Task.read tier).parse) :=
  balances rfl (comes_read p tier []) (fun _ _ => rfl)

theorem balances_group (p : Parser) :
    (enter p []).Balances .give p.depth (p.run Expr.readGroup) := by
  obtain ⟨hparser, hframes, _⟩ := enter_eq p []
  have hdepth : (enter p []).parser.depth = p.depth + (enter p []).openGroups := by
    rw [hparser, openGroups, hframes]
    rfl
  exact balances hdepth (comes_enter p []) (fun _ _ => rfl)

theorem balances_statement (p : Parser) :
    Balances ⟨.statement, p, []⟩ .complete p.depth (p.run Statement.read) :=
  balances rfl (comes_statement p []) (fun _ _ => rfl)

end Balance

section Within

variable {config : Config} {ts : List Token} {m m' : Machine}

theorem Change.kept (h : m.Change m') : m'.parser.rules = m.parser.rules ∧
    m'.parser.maxDepth = m.parser.maxDepth ∧
    m'.parser.cursor.tokens = m.parser.cursor.tokens := by
  cases h with
  | moves w c hw hparser => exact hparser ▸ ⟨rfl, rfl, hw.tokens_eq⟩
  | enters _ hparser => exact hparser ▸ ⟨rfl, rfl, m.parser.cursor.tokens_next⟩
  | leaves w c hw hparser => exact hparser ▸ ⟨rfl, rfl, hw.tokens_eq⟩

/-- The depth rises by a token that is passed, unless the end of the input opens groups. -/
theorem Change.depth_le (h : m.Change m')
    (hopens : ∀ kind, m.parser.rules.operand? kind = some .group → kind ≠ .endOfInput) :
    m'.parser.depth + m.parser.cursor.position ≤
      m.parser.depth + m'.parser.cursor.position := by
  cases h with
  | moves w c hw hparser =>
    rw [hparser]
    show m.parser.depth + m.parser.cursor.position ≤ m.parser.depth + c.position
    rw [hw.position_eq]
    omega
  | enters rule hparser =>
    have hpass := Cursor.Passes.next_of_kind rfl (hopens _ rule)
    rw [hparser]
    show m.parser.depth + 1 + m.parser.cursor.position ≤
      m.parser.depth + m.parser.cursor.next.position
    rw [hpass.position_eq, List.length_singleton]
    omega
  | leaves w c hw hparser =>
    rw [hparser]
    show m.parser.depth - 1 + m.parser.cursor.position ≤ m.parser.depth + c.position
    rw [hw.position_eq]
    omega

/-- The depth is within the limit, but for the end of a run where a group was refused. -/
def Fits (m : Machine) : Prop := m.parser.depth ≤ m.parser.maxDepth ∨
  m.parser.depth = m.parser.maxDepth + 1 ∧ ∃ d, m.control = .failed d

theorem Fits.next (h : m.Fits) (hstep : m.step = some m') : m'.Fits := by
  have hbelow : m.parser.depth ≤ m.parser.maxDepth := by
    rcases h with h | ⟨_, d, hd⟩
    · exact h
    -- a machine that has failed makes no step
    · unfold Machine.step at hstep
      rw [hd] at hstep
      cases hstep
  unfold Fits
  rw [(change_of_step hstep).kept.2.1]
  cases change_of_step hstep with
  | moves w c _ hparser => exact .inl (hparser ▸ hbelow)
  | enters _ hparser _ hfits =>
    have hdepth : m'.parser.depth = m.parser.depth + 1 := by rw [hparser]
    rcases hfits with hfits | hfailed
    · exact .inl hfits
    · rcases Nat.lt_or_eq_of_le hbelow with hlt | heq
      · exact .inl (hdepth ▸ hlt)
      · exact .inr ⟨by omega, hfailed⟩
  | leaves w c _ hparser => exact .inl (hparser ▸ (Nat.sub_le _ _).trans hbelow)

theorem kept_of_reaches (h : Reaches step m m') : m'.parser.rules = m.parser.rules ∧
    m'.parser.maxDepth = m.parser.maxDepth ∧
    m'.parser.cursor.tokens = m.parser.cursor.tokens := by
  induction h with
  | refl => exact ⟨rfl, rfl, rfl⟩
  | tail _ hstep ih =>
    obtain ⟨hrules, hmax, htokens⟩ := (change_of_step hstep).kept
    exact ⟨hrules.trans ih.1, hmax.trans ih.2.1, htokens.trans ih.2.2⟩

theorem depth_le_of_reaches
    (hopens : ∀ kind, m.parser.rules.operand? kind = some .group → kind ≠ .endOfInput)
    (h : Reaches step m m') :
    m'.parser.depth + m.parser.cursor.position ≤
      m.parser.depth + m'.parser.cursor.position := by
  induction h with
  | refl => exact Nat.le_refl _
  | tail hreach hstep ih =>
    have hle := (change_of_step hstep).depth_le (by rwa [(kept_of_reaches hreach).1])
    omega

theorem Fits.reaches (h : m.Fits) (hreach : Reaches step m m') : m'.Fits := by
  induction hreach with
  | refl => exact h
  | tail _ hstep ih => exact ih.next hstep

theorem Fits.depth_le (h : m.Fits) : m.parser.depth ≤ m.parser.maxDepth + 1 := by
  rcases h with h | ⟨h, _⟩ <;> omega

/-- What holds at each state of the reading of a program: the depth counts the open groups, each
of which stands for a token passed, and all of which but a refused one are within the limit.  A
word that counts the tokens counts the groups, and one is open wherever one is left. -/
structure Within (config : Config) (ts : List Token) (m : Machine) : Prop where
  depth : m.parser.depth = m.openGroups
  bound : m.parser.depth ≤ min (config.maxDepth + 1) m.parser.cursor.position
  passed : m.parser.cursor.position ≤ (ts.takeWhile (fun t => !t.isEnd)).length
  word : ts.length < USize.size → m.parser.depth < USize.size
  leaves : ∀ e left, m.control = .give e → m.frames = .group :: left → 0 < m.parser.depth

theorem position_le_of_reaches (h : Reaches step (ofTokens config ts) m) :
    m.parser.cursor.position ≤ (ts.takeWhile (fun t => !t.isEnd)).length := by
  have hstart := (Cursor.ofTokens ts).length_takeWhile_tokens
  have hlength := m.parser.cursor.length_takeWhile_tokens
  have htokens : m.parser.cursor.tokens = (Cursor.ofTokens ts).tokens := (kept_of_reaches h).2.2
  rw [htokens, hstart] at hlength
  simp only [Cursor.position, Cursor.remaining, Cursor.behind_ofTokens, Cursor.ahead_ofTokens,
    List.length_nil, Nat.zero_add] at hlength
  exact hlength ▸ Nat.le_add_right _ _

theorem within_of_reaches (h : Reaches step (ofTokens config ts) m) : m.Within config ts := by
  have hopens : ∀ kind, (Rules.standard config.matching).operand? kind = some .group →
      kind ≠ .endOfInput := by
    rintro _ hrule rfl
    cases hrule
  have hdepth : m.parser.depth = m.openGroups :=
    (depth_of_reaches (n := 0) rfl h).trans (Nat.zero_add _)
  have hmax : m.parser.maxDepth = config.maxDepth := (kept_of_reaches h).2.1
  have hlimit : m.parser.depth ≤ config.maxDepth + 1 :=
    hmax ▸ (Fits.reaches (.inl (Nat.zero_le _)) h).depth_le
  have hposition : m.parser.depth ≤ m.parser.cursor.position := by
    have hle := depth_le_of_reaches hopens h
    simp only [ofTokens, Parser.ofTokens, Cursor.position, Cursor.behind_ofTokens,
      List.length_nil] at hle ⊢
    omega
  have hpassed := position_le_of_reaches h
  have hlength := (List.takeWhile_prefix (l := ts) (fun t => !t.isEnd)).length_le
  exact {
    depth := hdepth
    bound := Nat.le_min.2 ⟨hlimit, hposition⟩
    passed := hpassed
    word := fun hword => by omega
    leaves := fun e left _ hframes => by
      rw [hdepth, openGroups, hframes, List.countP_cons_of_pos rfl]
      exact Nat.succ_pos _ }

end Within

/-- A success finds the depth where it was, whatever the rules, the limit and the groups that are
open already; a failure leaves it above that by the groups entered and not left, a refused one
among them.  In the reading of a program the depth counts the open groups at every step, and it
is at most one above the limit and at most the number of tokens passed. -/
theorem depth_balanced :
    (∀ p : Parser,
      (∀ tier, Balances ⟨.task (.read tier), p, []⟩ .give p.depth
        (p.run (Parser.Task.read tier).parse)) ∧
      (enter p []).Balances .give p.depth (p.run Expr.readGroup) ∧
      Balances ⟨.statement, p, []⟩ .complete p.depth (p.run Statement.read)) ∧
    ∀ (config : Config) (ts : List Token),
      (∀ m, Reaches step (ofTokens config ts) m → m.Within config ts) ∧
      (∀ program, Program.ofTokens config ts = .ok program →
        ∃ q, ⟨.finished program.body, q, []⟩ ∈ eval step (ofTokens config ts)) ∧
      ∀ d, Program.ofTokens config ts = .error d →
        ∃ q left, ⟨.failed d, q, left⟩ ∈ eval step (ofTokens config ts) := by
  refine ⟨fun p => ⟨balances_read p, balances_group p, balances_statement p⟩,
    fun config ts => ?_⟩
  have hconcludes := concludes_ofTokens config ts
  refine ⟨fun m => within_of_reaches, fun program hok => ?_, fun d herror => ?_⟩
  · rw [hok] at hconcludes
    obtain ⟨q, hq⟩ := hconcludes
    exact ⟨q, mem_eval.2 ⟨hq, rfl⟩⟩
  · rw [herror] at hconcludes
    obtain ⟨q, left, hq⟩ := hconcludes
    exact ⟨q, left, mem_eval.2 ⟨hq, rfl⟩⟩

/-- A group beside another one, and one in it that is refused where groups may not stand inside
each other. -/
def refusedInside : List Token :=
  [⟨.openParen, "(", Span.null⟩, ⟨.identifier, "a", Span.null⟩, ⟨.closeParen, ")", Span.null⟩,
    ⟨.plus, "+", Span.null⟩, ⟨.openParen, "(", Span.null⟩, ⟨.openParen, "(", Span.null⟩]

theorem depth_balanced_refusedInside :
    (∃ q left,
      ⟨.failed (.unexpected ⟨.openParen, "(", Span.null⟩ .nestedTooDeeply), q, left⟩ ∈
        eval step ⟨.statement, .ofTokens (.standard .byKind) 1 refusedInside, []⟩ ∧
      q.depth = 2 ∧ left.countP Frame.isGroup = 2) ∧
    ∃ m ∈ eval step (ofTokens ⟨none, .byKind, 1⟩ refusedInside),
      m.Within ⟨none, .byKind, 1⟩ refusedInside := by
  constructor
  · obtain ⟨left, hleft, hdepth⟩ :=
      (depth_balanced.1 (.ofTokens (.standard .byKind) 1 refusedInside)).2.2.error _ _ rfl
    exact ⟨_, left, hleft, rfl, (Nat.zero_add _).symm.trans hdepth.symm⟩
  · obtain ⟨hwithin, _, hfails⟩ := depth_balanced.2 ⟨none, .byKind, 1⟩ refusedInside
    obtain ⟨q, left, hend⟩ := hfails _ rfl
    exact ⟨_, hend, hwithin _ (mem_eval.1 hend).1⟩

end Machine

end LetArith
