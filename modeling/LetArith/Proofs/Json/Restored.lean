import LetArith.Proofs.Json.Forms
import LetArith.Proofs.Number.ReadBack
import Mathlib.Data.List.Nodup

/-! What comes back from JSON.  A tree with finite numbers is read back from the form that it is
written in, however deep it is; whatever is read, in any form, is such a tree; and a tree with
another number is not read back at all, since null, which stands for it, keeps no number. -/

namespace LetArith

namespace Json

theorem case?_tagged_iff {tag tag' : String} {value content : Json} :
    (tagged tag value).case? = some (tag', content) ↔ tag = tag' ∧ value = content := by
  simp [tagged, record, case?]

theorem lookup_of_mem {members : List (String × Json)} {m : String × Json}
    (hm : m ∈ members) (h : (members.map Prod.fst).Nodup) :
    (members.map (fun m => (some m.1, m.2))).lookup (some m.1) = some m.2 := by
  induction members with
  | nil => cases hm
  | cons n members ih =>
    rw [List.map_cons, List.nodup_cons] at h
    rcases List.mem_cons.1 hm with rfl | hm
    · exact List.lookup_cons_self
    · have hne : m.1 ≠ n.1 := fun heq => h.1 (heq ▸ List.mem_map_of_mem hm)
      rw [List.map_cons, List.lookup_cons, beq_eq_false_iff_ne.2 (by simpa using hne)]
      exact ih hm h.2

/-- The fields of a record are those it is made of, if their names are different. -/
theorem fields?_record {members : List (String × Json)} {names : List String}
    (hnames : members.map Prod.fst = names) (h : names.Nodup) :
    (record members).fields? names = some (members.map (fun m => some m.2)) := by
  subst hnames
  have hknown : (members.map (fun m => (some m.1, m.2))).filterMap Prod.fst =
      members.map Prod.fst := by
    rw [List.filterMap_map, ← List.filterMap_eq_map]
    rfl
  have honce : (members.map Prod.fst).all
      (fun name => (members.map Prod.fst).count name ≤ 1) = true :=
    List.all_eq_true.2 (fun name _ => decide_eq_true (List.nodup_iff_count_le_one.1 h name))
  unfold record fields?
  dsimp only
  rw [hknown, if_pos ⟨by simp, honce⟩, List.map_map]
  exact congrArg some (List.map_congr_left (fun m hm => lookup_of_mem hm h))

end Json

namespace Binary64

/-- A way to write numbers that restores each finite one, and says null for the others. -/
structure Restoring (literal : Binary64 → Json) : Prop where
  finite : ∀ x, x.isFinite = true → ofJson? (literal x) = some x
  null : ∀ x, x.isFinite = false → literal x = .null

theorem restoring_toJson : Restoring toJson where
  finite x h := by
    cases x with
    | nan => cases h
    | infinite negative => cases h
    | finite negative rank => simp [toJson, ofJson?, ofDecimal_shortest_signed, isFinite]
  null x h := by
    cases x with
    | nan => rfl
    | infinite negative => rfl
    | finite negative rank => cases h

theorem isFinite_of_ofJson? {json : Json} {x : Binary64} (h : ofJson? json = some x) :
    x.isFinite = true := by
  cases json with
  | number negative magnitude =>
    unfold ofJson? at h
    dsimp only at h
    split at h
    · next hfinite =>
      cases h
      exact hfinite
    · cases h
  | _ => cases h

theorem Restoring.eq_of_ofJson? {literal : Binary64 → Json} (hl : Restoring literal)
    {x y : Binary64} (h : ofJson? (literal x) = some y) : y = x := by
  cases hx : x.isFinite with
  | true =>
    rw [hl.finite x hx] at h
    exact (Option.some.inj h).symm
  | false =>
    rw [hl.null x hx] at h
    cases h

end Binary64

variable {literal : Binary64 → Json} {room : Nat} {json : Json}

namespace Expr

/-- How many arrays and objects stand inside each other where a tree is written. -/
def jsonDepth : Expr → Nat
  | binary left _ right => max left.jsonDepth right.jsonDepth + 2
  | identifier _ => 2
  | number _ => 2

theorem fields?_binary (l r o : Json) :
    (Json.record [("left", l), ("right", r), ("operator", o)]).fields?
      ["left", "right", "operator"] = some [some l, some r, some o] :=
  Json.fields?_record rfl (by decide)

theorem fields?_identifier (s : Json) :
    (Json.record [("symbol", s)]).fields? ["symbol"] = some [some s] :=
  Json.fields?_record rfl (by decide)

theorem fields?_number (v : Json) :
    (Json.record [("value", v)]).fields? ["value"] = some [some v] :=
  Json.fields?_record rfl (by decide)

theorem Kept.isFinite {e : Expr} (h : Kept room json e) : ∀ x ∈ e.numbers, x.isFinite = true := by
  induction h with
  | binary _ _ _ _ _ ihl ihr =>
    intro x hx
    rcases List.mem_append.1 hx with hx | hx
    · exact ihl x hx
    · exact ihr x hx
  | identifier _ _ =>
    intro x hx
    cases hx
  | number _ _ value =>
    intro x hx
    rw [List.mem_singleton.1 hx]
    exact Binary64.isFinite_of_ofJson? value

theorem Kept.jsonDepth_le {e : Expr} (h : Kept room json e) : e.jsonDepth ≤ room := by
  induction h with
  | binary _ _ _ _ _ ihl ihr => exact Nat.add_le_add_right (Nat.max_le.2 ⟨ihl, ihr⟩) 2
  | identifier _ _ => exact Nat.le_add_left 2 _
  | number _ _ _ => exact Nat.le_add_left 2 _

theorem two_le_jsonDepth (e : Expr) : 2 ≤ e.jsonDepth := by
  cases e <;> exact Nat.le_add_left 2 _

theorem kept_toJson (hl : Binary64.Restoring literal) {e : Expr}
    (hfinite : ∀ x ∈ e.numbers, x.isFinite = true) (hroom : e.jsonDepth ≤ room) :
    Kept room (e.toJson literal) e := by
  induction e generalizing room with
  | binary l op r ihl ihr =>
    obtain ⟨k, rfl⟩ := Nat.exists_eq_add_of_le' (Nat.le_trans (two_le_jsonDepth _) hroom)
    obtain ⟨hrooml, hroomr⟩ := Nat.max_le.1 (Nat.le_of_add_le_add_right hroom)
    exact .binary (Json.case?_tagged_iff.2 ⟨rfl, rfl⟩) (fields?_binary _ _ _)
      (ihl (fun x hx => hfinite x (List.mem_append_left _ hx)) hrooml)
      (ihr (fun x hx => hfinite x (List.mem_append_right _ hx)) hroomr)
      (Operator.ofLexeme?_lexeme op)
  | identifier symbol =>
    obtain ⟨k, rfl⟩ := Nat.exists_eq_add_of_le' hroom
    exact .identifier (Json.case?_tagged_iff.2 ⟨rfl, rfl⟩) (fields?_identifier _)
  | number x =>
    obtain ⟨k, rfl⟩ := Nat.exists_eq_add_of_le' hroom
    exact .number (Json.case?_tagged_iff.2 ⟨rfl, rfl⟩) (fields?_number _)
      (hl.finite x (hfinite x (List.mem_singleton_self x)))

/-- What is written for a tree keeps no other tree. -/
theorem eq_of_kept (hl : Binary64.Restoring literal) {e e' : Expr}
    (h : Kept room (e.toJson literal) e') : e' = e := by
  induction e generalizing room e' with
  | binary l op r ihl ihr =>
    cases h with
    | binary case fields left right operator =>
      obtain ⟨-, rfl⟩ := Json.case?_tagged_iff.1 case
      rw [fields?_binary] at fields
      cases fields
      rw [ihl left, ihr right, Option.some.inj ((Operator.ofLexeme?_lexeme op).symm.trans operator)]
    | identifier case _ => exact absurd (Json.case?_tagged_iff.1 case).1 (by decide)
    | number case _ _ => exact absurd (Json.case?_tagged_iff.1 case).1 (by decide)
  | identifier symbol =>
    cases h with
    | identifier case fields =>
      obtain ⟨-, rfl⟩ := Json.case?_tagged_iff.1 case
      rw [fields?_identifier] at fields
      cases fields
      rfl
    | binary case _ _ _ _ => exact absurd (Json.case?_tagged_iff.1 case).1 (by decide)
    | number case _ _ => exact absurd (Json.case?_tagged_iff.1 case).1 (by decide)
  | number x =>
    cases h with
    | number case fields value =>
      obtain ⟨-, rfl⟩ := Json.case?_tagged_iff.1 case
      rw [fields?_number] at fields
      cases fields
      rw [hl.eq_of_ofJson? value]
    | binary case _ _ _ _ => exact absurd (Json.case?_tagged_iff.1 case).1 (by decide)
    | identifier case _ => exact absurd (Json.case?_tagged_iff.1 case).1 (by decide)

end Expr

namespace Declaration

def jsonDepth (d : Declaration) : Nat := d.value.elim 0 Expr.jsonDepth + 1

theorem fields?_record (c n v : Json) :
    (Json.record [("is_constant", c), ("identifier", n), ("value", v)]).fields?
      ["is_constant", "identifier", "value"] = some [some c, some n, some v] :=
  Json.fields?_record rfl (by decide)

theorem Kept.isFinite {d : Declaration} (h : d.Kept room json) :
    ∀ x ∈ (Statement.declaration d).numbers, x.isFinite = true := by
  cases h with
  | missing _ => exact fun x hx => nomatch hx
  | null _ => exact fun x hx => nomatch hx
  | value _ kept => exact kept.isFinite

theorem Kept.jsonDepth_le {d : Declaration} (h : d.Kept room json) : d.jsonDepth ≤ room := by
  cases h with
  | missing _ => exact Nat.le_add_left 1 _
  | null _ => exact Nat.le_add_left 1 _
  | value _ kept => exact Nat.succ_le_succ kept.jsonDepth_le

theorem kept_toJson (hl : Binary64.Restoring literal) {d : Declaration}
    (hfinite : ∀ x ∈ (Statement.declaration d).numbers, x.isFinite = true)
    (hroom : d.jsonDepth ≤ room + 1) : d.Kept (room + 1) (d.toJson literal) := by
  obtain ⟨constant, name, value⟩ := d
  cases value with
  | none => exact .null (fields?_record _ _ _)
  | some e =>
    exact .value (fields?_record _ _ _) (Expr.kept_toJson hl hfinite (Nat.le_of_succ_le_succ hroom))

theorem eq_of_kept (hl : Binary64.Restoring literal) {d d' : Declaration}
    (h : d'.Kept room (d.toJson literal)) : d' = d := by
  obtain ⟨constant, name, value⟩ := d
  cases h with
  | missing fields =>
    rw [toJson, fields?_record] at fields
    cases fields
  | null fields =>
    rw [toJson, fields?_record] at fields
    cases value with
    | none =>
      cases fields
      rfl
    | some e => cases e <;> cases fields
  | value fields kept =>
    rw [toJson, fields?_record] at fields
    cases value with
    | none =>
      cases fields
      cases kept <;> contradiction
    | some e =>
      cases fields
      rw [Expr.eq_of_kept hl kept]

end Declaration

namespace Statement

def jsonDepth : Statement → Nat
  | declaration d => d.jsonDepth + 1
  | expression e => e.jsonDepth + 1

theorem Kept.isFinite {s : Statement} (h : s.Kept room json) :
    ∀ x ∈ s.numbers, x.isFinite = true := by
  cases h with
  | declaration _ kept => exact kept.isFinite
  | expression _ kept => exact kept.isFinite

theorem Kept.jsonDepth_le {s : Statement} (h : s.Kept room json) : s.jsonDepth ≤ room := by
  cases h with
  | declaration _ kept => exact Nat.succ_le_succ kept.jsonDepth_le
  | expression _ kept => exact Nat.succ_le_succ kept.jsonDepth_le

theorem kept_toJson (hl : Binary64.Restoring literal) {s : Statement}
    (hfinite : ∀ x ∈ s.numbers, x.isFinite = true) (hroom : s.jsonDepth ≤ room) :
    s.Kept room (s.toJson literal) := by
  cases s with
  | declaration d =>
    obtain ⟨k, rfl⟩ := Nat.exists_eq_add_of_le' (Nat.le_trans (Nat.le_add_left 2 _) hroom)
    exact .declaration (Json.case?_tagged_iff.2 ⟨rfl, rfl⟩)
      (Declaration.kept_toJson hl hfinite (Nat.le_of_succ_le_succ hroom))
  | expression e =>
    obtain ⟨k, rfl⟩ := Nat.exists_eq_add_of_le' (Nat.le_trans (Nat.le_add_left 1 _) hroom)
    exact .expression (Json.case?_tagged_iff.2 ⟨rfl, rfl⟩)
      (Expr.kept_toJson hl hfinite (Nat.le_of_succ_le_succ hroom))

theorem eq_of_kept (hl : Binary64.Restoring literal) {s s' : Statement}
    (h : s'.Kept room (s.toJson literal)) : s' = s := by
  cases s with
  | declaration d =>
    cases h with
    | declaration case kept =>
      obtain ⟨-, rfl⟩ := Json.case?_tagged_iff.1 case
      rw [Declaration.eq_of_kept hl kept]
    | expression case _ => exact absurd (Json.case?_tagged_iff.1 case).1 (by decide)
  | expression e =>
    cases h with
    | expression case kept =>
      obtain ⟨-, rfl⟩ := Json.case?_tagged_iff.1 case
      rw [Expr.eq_of_kept hl kept]
    | declaration case _ => exact absurd (Json.case?_tagged_iff.1 case).1 (by decide)

end Statement

namespace Program

def jsonDepth (p : Program) : Nat := (p.body.map Statement.jsonDepth).foldr max 0 + 2

theorem foldr_max_le_iff {n : Nat} {ss : List Statement} :
    (ss.map Statement.jsonDepth).foldr max 0 ≤ n ↔ ∀ s ∈ ss, s.jsonDepth ≤ n := by
  induction ss with
  | nil => simp
  | cons s ss ih =>
    rw [List.forall_mem_cons, ← ih]
    exact Nat.max_le

theorem fields?_record (b : Json) :
    (Json.record [("body", b)]).fields? ["body"] = some [some b] :=
  Json.fields?_record rfl (by decide)

theorem exists_kept {items : List Json} {ss : List Statement} {s : Statement}
    (h : List.Forall₂ (Statement.Kept room) items ss) (hs : s ∈ ss) :
    ∃ item, s.Kept room item := by
  induction h with
  | nil => cases hs
  | cons kept _ ih =>
    rcases List.mem_cons.1 hs with rfl | hs
    · exact ⟨_, kept⟩
    · exact ih hs

theorem Kept.isFinite {p : Program} (h : p.Kept room json) :
    ∀ x ∈ p.numbers, x.isFinite = true := by
  cases h with
  | body _ kept =>
    intro x hx
    obtain ⟨s, hs, hx⟩ := List.mem_flatMap.1 hx
    obtain ⟨item, hitem⟩ := exists_kept kept hs
    exact hitem.isFinite x hx

theorem Kept.jsonDepth_le {p : Program} (h : p.Kept room json) : p.jsonDepth ≤ room := by
  cases h with
  | body _ kept =>
    refine Nat.add_le_add_right (foldr_max_le_iff.2 (fun s hs => ?_)) 2
    obtain ⟨item, hitem⟩ := exists_kept kept hs
    exact hitem.jsonDepth_le

theorem kept_toJson (hl : Binary64.Restoring literal) {p : Program}
    (hfinite : ∀ x ∈ p.numbers, x.isFinite = true) (hroom : p.jsonDepth ≤ room) :
    p.Kept room (p.toJson literal) := by
  obtain ⟨k, rfl⟩ := Nat.exists_eq_add_of_le' (Nat.le_trans (Nat.le_add_left 2 _) hroom)
  have hdepth := foldr_max_le_iff.1 (Nat.le_of_add_le_add_right hroom)
  refine .body (fields?_record _) (List.forall₂_map_left_iff.2 (List.forall₂_same.2 (fun s hs => ?_)))
  exact Statement.kept_toJson hl (fun x hx => hfinite x (List.mem_flatMap.2 ⟨s, hs, hx⟩))
    (hdepth s hs)

theorem eq_of_kept (hl : Binary64.Restoring literal) {p q : Program}
    (h : q.Kept room (p.toJson literal)) : q = p := by
  cases h with
  | body fields kept =>
    rw [toJson, fields?_record] at fields
    cases fields
    have heq := (List.forall₂_map_left_iff.1 kept).imp
      (fun s s' h => (Statement.eq_of_kept hl h).symm)
    rw [List.forall₂_eq_eq_eq] at heq
    rw [← heq]

/-- What is written for a program keeps it where anything does. -/
theorem Kept.rewritten (hl : Binary64.Restoring literal) {p : Program} (h : p.Kept room json) :
    p.Kept room (p.toJson literal) := kept_toJson hl h.isFinite h.jsonDepth_le

/-- A program with finite numbers comes back from JSON as it was, and so does every one that has
been read from JSON in any form.  A program with another number does not come back. -/
theorem json_restored :
    Binary64.Restoring Binary64.toJson ∧ ∀ literal, Binary64.Restoring literal →
      (∀ p : Program, (∀ x ∈ p.numbers, x.isFinite = true) → ∀ room, p.jsonDepth ≤ room →
        ofJson? room (p.toJson literal) = some p) ∧
      (∀ room json p, ofJson? room json = some p →
        (∀ x ∈ p.numbers, x.isFinite = true) ∧ ofJson? room (p.toJson literal) = some p) ∧
      (∀ text p, ofJsonText? text = some p →
        (∀ x ∈ p.numbers, x.isFinite = true) ∧ ofJson? jsonRoom (p.toJson literal) = some p) ∧
      ∀ (p : Program) (x : Binary64), x ∈ p.numbers → x.isFinite = false →
        literal x = .null ∧ ∀ room, ofJson? room (p.toJson literal) = none := by
  refine ⟨Binary64.restoring_toJson, fun literal hl => ?_⟩
  have haccepted : ∀ room json p, ofJson? room json = some p →
      (∀ x ∈ p.numbers, x.isFinite = true) ∧ ofJson? room (p.toJson literal) = some p := by
    intro room json p h
    have hkept := ofJson?_eq_some_iff.1 h
    exact ⟨hkept.isFinite, ofJson?_eq_some_iff.2 (hkept.rewritten hl)⟩
  refine ⟨fun p hfinite room hroom => ?_, haccepted, fun text p h => ?_, fun p x hx hother => ?_⟩
  · exact ofJson?_eq_some_iff.2 (kept_toJson hl hfinite hroom)
  · obtain ⟨json, _, hjson⟩ := Option.bind_eq_some_iff.1 h
    exact haccepted jsonRoom json p hjson
  · refine ⟨hl.null x hother, fun room => ?_⟩
    cases h : ofJson? room (p.toJson literal) with
    | none => rfl
    | some q =>
      have hkept := ofJson?_eq_some_iff.1 h
      rw [eq_of_kept hl hkept] at hkept
      rw [hkept.isFinite x hx] at hother
      cases hother

/-- A constant without a value, and a sum with a negative zero. -/
def sparse : Program :=
  ⟨[.declaration ⟨true, "c", none⟩,
    .expression (.binary (.number Binary64.zero.negate) .add (.identifier "x"))]⟩

/-- Records written as arrays, a field that is missing, one of no use, and an operator written
as a case. -/
def sparseText : String :=
  "[[\x7b\"VarDeclaration\":\x7b\"identifier\":\"c\",\"at\":[1],\"is_constant\":true\x7d\x7d," ++
    "\x7b\"Expr\":\x7b\"Binary\":[\x7b\"NumericLiteral\":[-0.0]\x7d," ++
    "\x7b\"Identifier\":[\"x\"]\x7d,\x7b\"+\":null\x7d]\x7d\x7d]]"

theorem json_restored_sparse :
    ofJsonText? sparseText = some sparse ∧ (∀ x ∈ sparse.numbers, x.isFinite = true) ∧
      ofJson? jsonRoom (sparse.toJson Binary64.toJson) = some sparse ∧
      ofJson? 7 (sparse.toJson Binary64.toJson) = some sparse ∧
      Binary64.toJson .nan = .null ∧
      ofJson? jsonRoom (toJson Binary64.toJson ⟨[.expression (.number .nan)]⟩) = none := by
  obtain ⟨hwritten, -, hread, hlost⟩ := json_restored.2 Binary64.toJson json_restored.1
  have htext : ofJsonText? sparseText = some sparse := by decide +kernel
  obtain ⟨hfinite, hback⟩ := hread _ _ htext
  obtain ⟨hnull, hnone⟩ := hlost ⟨[.expression (.number .nan)]⟩ .nan (by decide) rfl
  exact ⟨htext, hfinite, hback, hwritten sparse hfinite 7 (by decide), hnull, hnone jsonRoom⟩

end Program

end LetArith
