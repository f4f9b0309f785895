import LetArith.Source.Reader
import LetArith.Proofs.Source.Placement
import Mathlib.Computability.StateTransition

/-! The scanner as a loop over bytes.  In every round the patterns are tried in their order on the
rest of the text, and the handler of the first that matches moves the place on, some by the bytes
that were matched and some by those of a text of their own.  The place never leaves the text and
never stands inside a character, so that there always is a rest to try them on; and the loop ends,
with the tokens of the text. -/

namespace LetArith

open StateTransition

/-- What is done with the characters that a pattern matches.  A fixed token is made without looking
at them. -/
inductive Handler where
  | word
  | number
  | skip
  | fixed (kind : Kind) (text : String)

/-- A pattern matches some characters that a text begins with, or none. -/
structure Pattern where
  matched? : List Char → Option (List Char)
  handler : Handler

namespace Pattern

/-- One or more characters of a class, and as many as there are. -/
def run? (p : Char → Bool) (cs : List Char) : Option (List Char) :=
  if cs.takeWhile p = [] then none else some (cs.takeWhile p)

def word? : List Char → Option (List Char)
  | [] => none
  | c :: cs => if isWordStart c then some (c :: cs.takeWhile isWordPart) else none

def fraction : List Char → List Char
  | '.' :: cs => ((run? Char.isDigit cs).map ('.' :: ·)).getD []
  | _ => []

def number? (cs : List Char) : Option (List Char) :=
  (run? Char.isDigit cs).map (· ++ fraction (cs.dropWhile Char.isDigit))

def comment? : List Char → Option (List Char)
  | '/' :: '/' :: cs => some ('/' :: '/' :: cs.takeWhile (· != '\n'))
  | _ => none

def char? (c : Char) : List Char → Option (List Char)
  | [] => none
  | d :: _ => if d = c then some [d] else none

def marks : List Pattern :=
  [⟨char? '(', .fixed .openParen "("⟩, ⟨char? ')', .fixed .closeParen ")"⟩,
    ⟨char? '=', .fixed .equals "="⟩, ⟨char? ';', .fixed .semicolon ";"⟩,
    ⟨char? '+', .fixed .plus "+"⟩, ⟨char? '-', .fixed .dash "-"⟩,
    ⟨char? '/', .fixed .slash "/"⟩, ⟨char? '*', .fixed .star "*"⟩,
    ⟨char? '%', .fixed .percent "%"⟩]

def all : List Pattern :=
  ⟨word?, .word⟩ :: ⟨number?, .number⟩ :: ⟨run? isBlank, .skip⟩ :: ⟨comment?, .skip⟩ :: marks

def firstOf? (patterns : List Pattern) (cs : List Char) : Option (Handler × List Char) :=
  patterns.findSome? (fun p => (p.matched? cs).map (p.handler, ·))

end Pattern

structure Scanner extends Place where
  tokens : List Token

namespace Scanner

def ofSource (source file : String) : Scanner := ⟨⟨source, file, 0⟩, []⟩

def skip (s : Scanner) (bytes : Nat) : Scanner := { s with toPlace := s.advance bytes }

def emit (s : Scanner) (kind : Kind) (text : String) (bytes : Nat) : Scanner where
  toPlace := s.advance bytes
  tokens := s.tokens ++ [⟨kind, text, ⟨s.position, (s.advance bytes).position⟩⟩]

def handle (s : Scanner) : Handler → List Char → Scanner
  | .word, matched =>
    s.emit (Kind.ofWord (String.ofList matched)) (String.ofList matched) (byteSize matched)
  | .number, matched => s.emit .number (String.ofList matched) (byteSize matched)
  | .skip, matched => s.skip (byteSize matched)
  | .fixed kind text, _ => s.emit kind text text.utf8ByteSize

end Scanner

/-- What a round of the loop comes to: to a scanner that goes on, to the result of the whole loop,
or to nothing where there is no rest of the text. -/
inductive Round where
  | goesOn (s : Scanner)
  | ends (result : Except Diagnostic (List Token))
  | stuck

namespace Scanner

def round (s : Scanner) : Round :=
  if s.atEnd then .ends (.ok (s.emit .endOfInput "EOF" 0).tokens)
  else
    match s.remainder? with
    | none => .stuck
    | some rest =>
      match Pattern.firstOf? Pattern.all rest with
      | some (handler, matched) => .goesOn (s.handle handler matched)
      | none =>
        .ends (.error ⟨.unrecognised ((rest.head?.map String.singleton).getD ""), s.position⟩)

def next? (s : Scanner) : Option Scanner :=
  match s.round with
  | .goesOn s' => some s'
  | _ => none

end Scanner

namespace Piece

def handler (p : Piece) : Handler :=
  match p.shape with
  | .word => .word
  | .number => .number
  | .blank => .skip
  | .comment => .skip
  | .mark kind => .fixed kind p.text

end Piece

namespace Pattern

theorem word?_cons (c : Char) (cs : List Char) : word? (c :: cs) =
    if isWordStart c then some (c :: cs.takeWhile isWordPart) else none := rfl

theorem run?_cons (p : Char → Bool) (c : Char) (cs : List Char) :
    run? p (c :: cs) = if p c then some (c :: cs.takeWhile p) else none := by
  cases h : p c <;> simp [run?, h]

theorem fraction_of_ne {cs : List Char} (h : ∀ d ds, cs ≠ '.' :: d :: ds) : fraction cs = [] := by
  unfold fraction
  split
  · next ds =>
    cases ds with
    | nil => rfl
    | cons d ds => exact absurd rfl (h d ds)
  · rfl

theorem number?_cons (c : Char) (cs : List Char) :
    number? (c :: cs) = if c.isDigit then some (Piece.number c cs).1.chars else none := by
  rw [number?, run?_cons]
  by_cases hc : c.isDigit = true
  · rw [if_pos hc, if_pos hc, List.dropWhile_cons_of_pos hc, Option.map_some]
    unfold Piece.number
    split
    · next d rest hdrop =>
      rw [hdrop, fraction, run?_cons]
      by_cases hd : d.isDigit = true
      · rw [if_pos hd, if_pos hd]
        rfl
      · rw [if_neg hd, if_neg hd]
        exact congrArg some (List.append_nil _)
    · next hpoint => rw [fraction_of_ne hpoint, List.append_nil]
  · rw [if_neg hc, if_neg hc, Option.map_none]

theorem comment?_cons (c : Char) (cs : List Char) :
    comment? (c :: cs) =
      if c = '/' ∧ cs.head? = some '/' then some (c :: cs.takeWhile (· != '\n')) else none := by
  unfold comment?
  split
  · next ds heq =>
    cases heq
    rfl
  · next hne =>
    rw [if_neg]
    rintro ⟨rfl, hhead⟩
    obtain ⟨ds, rfl⟩ := List.head?_eq_some_iff.1 hhead
    exact hne ds rfl

theorem firstOf?_cons (p : Pattern) (ps : List Pattern) (cs : List Char) :
    firstOf? (p :: ps) cs = ((p.matched? cs).map (p.handler, ·)).or (firstOf? ps cs) := by
  unfold firstOf?
  cases h : p.matched? cs <;> simp [h]

theorem firstOf?_marks (c : Char) (cs : List Char) :
    firstOf? marks (c :: cs) =
      (Kind.ofMark? c).map (fun kind => (.fixed kind (String.ofList [c]), [c])) := by
  unfold Kind.ofMark?
  split
  case h_10 => simp_all [marks, firstOf?, char?]
  all_goals rfl

/-- The first pattern that matches takes the piece that the text begins with. -/
theorem firstOf?_all (cs : List Char) :
    firstOf? all cs = (Piece.next? cs).map (fun r => (r.1.handler, r.1.chars)) := by
  cases cs with
  | nil => rfl
  | cons c cs =>
    rw [all, firstOf?_cons, firstOf?_cons, firstOf?_cons, firstOf?_cons, firstOf?_marks,
      Piece.next?, Piece.first?]
    dsimp only
    rw [word?_cons, number?_cons, run?_cons, comment?_cons]
    by_cases hword : isWordStart c = true
    · rw [if_pos hword, if_pos hword]
      rfl
    rw [if_neg hword, if_neg hword]
    by_cases hdigit : c.isDigit = true
    · have hshape := (Piece.number_spec hdigit cs).1
      rw [if_pos hdigit, if_pos hdigit, Option.map_some, Option.map_some, Option.map_none,
        Option.none_or, Option.some_or, Piece.handler, hshape]
    rw [if_neg hdigit, if_neg hdigit]
    by_cases hblank : isBlank c = true
    · rw [if_pos hblank, if_pos hblank]
      rfl
    rw [if_neg hblank, if_neg hblank]
    by_cases hcomment : c = '/' ∧ cs.head? = some '/'
    · rw [if_pos hcomment, if_pos hcomment]
      rfl
    rw [if_neg hcomment, if_neg hcomment]
    cases Kind.ofMark? c <;> rfl

end Pattern

namespace Place

variable {p : Place} {before rest : List Char}

/-- The place is between the characters `before` and `rest` of its text. -/
structure Stands (p : Place) (before rest : List Char) : Prop where
  chars : p.source.toList = before ++ rest
  offset : p.offset = byteSize before

namespace Stands

theorem size_eq (h : p.Stands before rest) :
    p.source.utf8ByteSize = p.offset + byteSize rest := by
  rw [← byteSize_toList, h.chars, byteSize_append, h.offset]

theorem remainder?_eq (h : p.Stands before rest) : p.remainder? = some rest := by
  rw [remainder?, h.chars, h.offset]
  exact dropBytes_byteSize before rest

theorem current?_eq (h : p.Stands before rest) : p.current? = some rest.head? := by
  rw [current?, h.remainder?_eq, Option.map_some]

theorem isValid (h : p.Stands before rest) : (⟨p.offset⟩ : String.Pos.Raw).IsValid p.source := by
  refine String.Pos.Raw.isValid_iff_exists_append.2
    ⟨String.ofList before, String.ofList rest, ?_, ?_⟩
  · rw [← String.ofList_append, ← h.chars, String.ofList_toList]
  · rw [h.offset, String.rawEndPos, utf8ByteSize_ofList]

theorem atEnd_iff (h : p.Stands before rest) : p.atEnd = true ↔ rest = [] := by
  rw [atEnd, decide_eq_true_iff, h.size_eq]
  constructor
  · intro hle
    by_contra hne
    have := byteSize_pos hne
    omega
  · rintro rfl
    exact Nat.le_refl _

end Stands

end Place

namespace Scanner

def pass (s : Scanner) (ps : List Piece) : Scanner where
  toPlace := s.advance (byteSize (Piece.joined ps))
  tokens := s.tokens ++ place s.file s.offset ps

@[simp] theorem source_pass (s : Scanner) (ps : List Piece) : (s.pass ps).source = s.source := rfl
@[simp] theorem file_pass (s : Scanner) (ps : List Piece) : (s.pass ps).file = s.file := rfl

@[simp] theorem offset_pass (s : Scanner) (ps : List Piece) :
    (s.pass ps).offset = s.offset + byteSize (Piece.joined ps) := rfl

@[simp] theorem tokens_pass (s : Scanner) (ps : List Piece) :
    (s.pass ps).tokens = s.tokens ++ place s.file s.offset ps := rfl

@[simp] theorem pass_nil (s : Scanner) : s.pass [] = s := by simp [pass, place]

theorem pass_cons (s : Scanner) (p : Piece) (ps : List Piece) :
    s.pass (p :: ps) = (s.pass [p]).pass ps := by
  simp [pass, place]

/-- The handler of a piece passes the bytes of the piece, also where it counts those of a text of
its own, and makes the token of the piece. -/
theorem handle_handler (s : Scanner) (p : Piece) : s.handle p.handler p.chars = s.pass [p] := by
  obtain ⟨shape, chars⟩ := p
  cases shape with
  | mark kind =>
    simp [Piece.handler, handle, emit, pass, place, Place.position, Piece.token?, Piece.kind?,
      Piece.text, utf8ByteSize_ofList]
  | _ => simp [Piece.handler, handle, emit, skip, pass, place, Place.position, Piece.token?,
      Piece.kind?, Piece.text]

variable {s s' : Scanner} {before rest cs : List Char} {p : Piece}

theorem stands_pass (h : s.Stands before rest) (hp : Piece.next? rest = some (p, cs)) :
    (s.pass [p]).Stands (before ++ p.chars) cs := by
  refine ⟨?_, ?_⟩
  · rw [source_pass, h.chars, ← Piece.next?_append hp, List.append_assoc]
  · simp [h.offset]

theorem round_of_nil (h : s.Stands before []) :
    s.round = .ends (.ok (s.tokens ++ [Token.endAt (.inFile s.file s.offset)])) := by
  rw [round, if_pos (h.atEnd_iff.2 rfl)]
  rfl

theorem round_of_cons {c : Char} (h : s.Stands before (c :: cs)) :
    s.round =
      match Piece.next? (c :: cs) with
      | some (p, _) => .goesOn (s.pass [p])
      | none => .ends (.error ⟨.unrecognised (String.singleton c), .inFile s.file s.offset⟩) := by
  have hopen : ¬ s.atEnd = true := fun hend => by cases h.atEnd_iff.1 hend
  rw [round, if_neg hopen, h.remainder?_eq]
  dsimp only
  rw [Pattern.firstOf?_all]
  cases Piece.next? (c :: cs) with
  | none => rfl
  | some r => exact congrArg Round.goesOn (s.handle_handler r.1)

/-- A round goes on by a piece, and only so. -/
theorem round_eq_goesOn_iff (h : s.Stands before rest) :
    s.round = .goesOn s' ↔ ∃ p cs, Piece.next? rest = some (p, cs) ∧ s' = s.pass [p] := by
  cases rest with
  | nil => simp [round_of_nil h, Piece.next?]
  | cons c cs =>
    rw [round_of_cons h]
    cases hp : Piece.next? (c :: cs) with
    | none => simp
    | some r =>
      obtain ⟨p, cs'⟩ := r
      simp [eq_comm]

theorem round_ne_stuck (h : s.Stands before rest) : s.round ≠ .stuck := by
  cases rest with
  | nil => simp [round_of_nil h]
  | cons c cs =>
    rw [round_of_cons h]
    cases Piece.next? (c :: cs) <;> simp

theorem next?_eq_some_iff : s.next? = some s' ↔ s.round = .goesOn s' := by
  unfold next?
  cases s.round <;> simp

/-- A round leaves the text and its name as they are, and the place on a boundary. -/
theorem stands_next (h : s.Stands before rest) (hs : s.next? = some s') :
    s'.source = s.source ∧ s'.file = s.file ∧ ∃ before' rest', s'.Stands before' rest' := by
  obtain ⟨p, cs, hp, rfl⟩ := (round_eq_goesOn_iff h).1 (next?_eq_some_iff.1 hs)
  exact ⟨rfl, rfl, _, _, stands_pass h hp⟩

theorem stands_ofSource (source file : String) : (ofSource source file).Stands [] source.toList :=
  ⟨rfl, rfl⟩

theorem stands_of_reaches {source file : String}
    (h : Reaches Scanner.next? (ofSource source file) s) :
    s.source = source ∧ s.file = file ∧ ∃ before rest, s.Stands before rest := by
  induction h with
  | refl => exact ⟨rfl, rfl, _, _, stands_ofSource source file⟩
  | tail _ hstep ih =>
    obtain ⟨hsource, hfile, before, rest, hstands⟩ := ih
    obtain ⟨hsource', hfile', hnext⟩ := stands_next hstands hstep
    exact ⟨hsource'.trans hsource, hfile'.trans hfile, hnext⟩

/-- From every boundary on the loop takes the pieces of the rest, one in a round, up to where none
begins. -/
theorem exists_reaches (h : s.Stands before rest) :
    ∃ before', Reaches Scanner.next? s (s.pass (Piece.split rest).1) ∧
      (s.pass (Piece.split rest).1).Stands before' (Piece.split rest).2 := by
  induction rest using Piece.split.induct generalizing s before with
  | case1 rest hnone =>
    rw [Piece.split_of_none hnone, pass_nil]
    exact ⟨before, .refl, h⟩
  | case2 rest p cs hp ih =>
    obtain ⟨before', hreach, hstands⟩ := ih (stands_pass h hp)
    have hstep : s.next? = some (s.pass [p]) :=
      next?_eq_some_iff.2 ((round_eq_goesOn_iff h).2 ⟨p, cs, hp, rfl⟩)
    rw [Piece.split_of_some hp, pass_cons]
    exact ⟨before', .head hstep hreach, hstands⟩

/-- What holds in every round of the loop over a text: the place is on a boundary of characters,
with `rest` behind it, and where the round goes on, it does so by the bytes of some characters that
`rest` begins with, whatever the handler counts. -/
structure Sound (text : String) (s : Scanner) (rest : List Char) : Prop where
  source : s.source = text
  within : s.offset ≤ text.utf8ByteSize
  boundary : (⟨s.offset⟩ : String.Pos.Raw).IsValid text
  remainder : s.remainder? = some rest
  reader : ∀ r : Reader, r.source = text → r.offset.toNat = s.offset →
    r.remainder? = some rest ∧ r.current? = some rest.head?
  unstuck : s.round ≠ .stuck
  moves : ∀ s', s.round = .goesOn s' → ∃ handler matched,
    Pattern.firstOf? Pattern.all rest = some (handler, matched) ∧ s' = s.handle handler matched ∧
    matched ≠ [] ∧ matched <+: rest ∧ s'.offset = s.offset + byteSize matched

theorem sound (h : s.Stands before rest) : s.Sound s.source rest where
  source := rfl
  within := by
    rw [h.size_eq]
    exact Nat.le_add_right _ _
  boundary := h.isValid
  remainder := h.remainder?_eq
  reader := by
    intro r hsource hoffset
    have hplace : r.place.Stands before rest :=
      ⟨(congrArg String.toList hsource).trans h.chars, hoffset.trans h.offset⟩
    exact ⟨hplace.remainder?_eq, hplace.current?_eq⟩
  unstuck := round_ne_stuck h
  moves := by
    intro s' hs
    obtain ⟨p, cs, hp, rfl⟩ := (round_eq_goesOn_iff h).1 hs
    refine ⟨p.handler, p.chars, ?_, (s.handle_handler p).symm, Piece.next?_ne_nil hp,
      ⟨cs, Piece.next?_append hp⟩, by simp⟩
    rw [Pattern.firstOf?_all, hp, Option.map_some]

/-- What the loop ends with in front of characters that no piece begins with. -/
def result (s : Scanner) : List Char → Except Diagnostic (List Token)
  | [] => .ok (s.tokens ++ [Token.endAt (.inFile s.file s.offset)])
  | c :: _ => .error ⟨.unrecognised (String.singleton c), .inFile s.file s.offset⟩

theorem round_of_none (h : s.Stands before rest) (hnone : Piece.next? rest = none) :
    s.round = .ends (s.result rest) := by
  cases rest with
  | nil => exact round_of_nil h
  | cons c cs => rw [round_of_cons h, hnone, result]

theorem result_pass_split (source file : String) :
    ((ofSource source file).pass (Piece.split source.toList).1).result
      (Piece.split source.toList).2 = tokenize file source := by
  unfold tokenize
  cases hrest : (Piece.split source.toList).2 <;> simp [result, ofSource, hrest]

end Scanner

/-- The scanner comes to the end of every text, or to a character in it that begins no token, and
it never leaves the boundaries of the characters on the way. -/
theorem tokenize_scans (file source : String) :
    (∀ s, Reaches Scanner.next? (.ofSource source file) s → ∃ rest, s.Sound source rest) ∧
    ∃ s ∈ eval Scanner.next? (.ofSource source file),
      s.round = .ends (tokenize file source) ∧
      (∀ ts, tokenize file source = .ok ts → s.offset = source.utf8ByteSize) ∧
      ∀ d, tokenize file source = .error d →
        ∃ c cs, s.remainder? = some (c :: cs) ∧
          d = ⟨.unrecognised (String.singleton c), .inFile file s.offset⟩ ∧
          d.fault ≠ .unrecognised "" := by
  refine ⟨fun s hs => ?_, ?_⟩
  · obtain ⟨rfl, _, before, rest, hstands⟩ := Scanner.stands_of_reaches hs
    exact ⟨rest, Scanner.sound hstands⟩
  · obtain ⟨before, hreach, hstands⟩ := Scanner.exists_reaches (Scanner.stands_ofSource source file)
    have hround := Scanner.round_of_none hstands (Piece.next?_split source.toList)
    have hresult := Scanner.result_pass_split source file
    generalize (Piece.split source.toList).2 = rest at hstands hround hresult
    generalize hs : (Scanner.ofSource source file).pass (Piece.split source.toList).1 = s at *
    have hsource : s.source = source := hs ▸ rfl
    have hfile : s.file = file := hs ▸ rfl
    refine ⟨s, mem_eval.2 ⟨hreach, by rw [Scanner.next?, hround]⟩, hresult ▸ hround, ?_, ?_⟩
    · intro ts hok
      cases rest with
      | nil => rw [← hsource, hstands.size_eq, byteSize_nil, Nat.add_zero]
      | cons c cs => cases hresult.trans hok
    · intro d herror
      cases rest with
      | nil => cases hresult.trans herror
      | cons c cs =>
        cases hresult.trans herror
        refine ⟨c, cs, hstands.remainder?_eq, by rw [hfile], ?_⟩
        simp

/-- A name behind a blank of two bytes, and a comment of four-byte characters that ends the text. -/
def wide : String := "\u00a0x//𝒳𝒴"

theorem tokenize_scans_wide : tokenize "m" wide =
      .ok [⟨.identifier, "x", ⟨⟨2, "m"⟩, ⟨3, "m"⟩⟩⟩, .endAt ⟨13, "m"⟩] ∧
    ∃ s ∈ eval Scanner.next? (.ofSource wide "m"), s.offset = 13 ∧ ∃ rest, s.Sound wide rest := by
  have hscan : tokenize "m" wide =
      .ok [⟨.identifier, "x", ⟨⟨2, "m"⟩, ⟨3, "m"⟩⟩⟩, .endAt ⟨13, "m"⟩] := by decide +kernel
  obtain ⟨hsound, s, hend, _, hok, _⟩ := tokenize_scans "m" wide
  have hsize : wide.utf8ByteSize = 13 := by decide +kernel
  exact ⟨hscan, s, hend, (hok _ hscan).trans hsize, hsound s (mem_eval.1 hend).1⟩

end LetArith
