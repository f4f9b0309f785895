import LetArith.Json.Tree
import Mathlib.Data.List.Forall2
import Mathlib.Data.Nat.Init

/-! The forms in which a tree may be kept as JSON, apart from any reader.  A record may be an
object or an array, an object may have members of no use, and a declaration without a value may
say so or say nothing about it; in each form, what a field holds is kept in one of its own.  The
readers accept these forms and no others. -/

namespace LetArith

namespace Json

/-- A list is read item by item. -/
theorem mapM_eq_some_iff {α β : Type} {f : α → Option β} {xs : List α} {ys : List β} :
    xs.mapM f = some ys ↔ List.Forall₂ (fun x y => f x = some y) xs ys := by
  induction xs generalizing ys with
  | nil => cases ys <;> simp
  | cons x xs ih =>
    rw [List.mapM_cons, List.forall₂_cons_left_iff]
    constructor
    · intro h
      obtain ⟨y, hy, h⟩ := Option.bind_eq_some_iff.1 h
      obtain ⟨zs, hzs, h⟩ := Option.bind_eq_some_iff.1 h
      cases h
      exact ⟨y, zs, hy, ih.1 hzs, rfl⟩
    · rintro ⟨y, zs, hy, hzs, rfl⟩
      simp [hy, ih.2 hzs]

end Json

namespace Expr

/-- `Kept room json e`: the value keeps the tree `e`, and has no more than `room` arrays and
objects inside each other where it does. -/
inductive Kept : Nat → Json → Expr → Prop where
  | binary {room : Nat} {json content a b o : Json} {l r : Expr} {op : Operator}
      (case : json.case? = some ("Binary", content))
      (fields : content.fields? ["left", "right", "operator"] = some [some a, some b, some o])
      (left : Kept room a l) (right : Kept room b r)
      (operator : Operator.ofJson? room o = some op) :
      Kept (room + 2) json (binary l op r)
  | identifier {room : Nat} {json content : Json} {symbol : String}
      (case : json.case? = some ("Identifier", content))
      (fields : content.fields? ["symbol"] = some [some (.text (some symbol))]) :
      Kept (room + 2) json (identifier symbol)
  | number {room : Nat} {json content v : Json} {x : Binary64}
      (case : json.case? = some ("NumericLiteral", content))
      (fields : content.fields? ["value"] = some [some v])
      (value : Binary64.ofJson? v = some x) :
      Kept (room + 2) json (number x)

theorem kept_of_ofJson? {room : Nat} {json : Json} {e : Expr} (h : ofJson? room json = some e) :
    Kept room json e := by
  induction room using Nat.twoStepInduction generalizing json e with
  | zero => cases h
  | one => cases h
  | more room ih _ =>
    rw [ofJson?] at h
    obtain ⟨⟨tag, content⟩, hcase, h⟩ := Option.bind_eq_some_iff.1 h
    dsimp only at h
    split at h
    · next htag =>
      subst htag
      obtain ⟨fields, hfields, h⟩ := Option.bind_eq_some_iff.1 h
      split at h
      · obtain ⟨l, hl, h⟩ := Option.bind_eq_some_iff.1 h
        obtain ⟨r, hr, h⟩ := Option.bind_eq_some_iff.1 h
        obtain ⟨op, hop, h⟩ := Option.bind_eq_some_iff.1 h
        cases h
        exact .binary hcase hfields (ih hl) (ih hr) hop
      · cases h
    split at h
    · next htag =>
      subst htag
      obtain ⟨fields, hfields, h⟩ := Option.bind_eq_some_iff.1 h
      split at h
      · cases h
        exact .identifier hcase hfields
      · cases h
    split at h
    · next htag =>
      subst htag
      obtain ⟨fields, hfields, h⟩ := Option.bind_eq_some_iff.1 h
      split at h
      · obtain ⟨x, hx, h⟩ := Option.map_eq_some_iff.1 h
        cases h
        exact .number hcase hfields hx
      · cases h
    · cases h

theorem ofJson?_eq_some_iff {room : Nat} {json : Json} {e : Expr} :
    ofJson? room json = some e ↔ Kept room json e := by
  refine ⟨kept_of_ofJson?, fun h => ?_⟩
  induction h with
  | binary case fields _ _ operator ihl ihr => simp [ofJson?, case, fields, ihl, ihr, operator]
  | identifier case fields => simp [ofJson?, case, fields]
  | number case fields value => simp [ofJson?, case, fields, value]

end Expr

namespace Declaration

inductive Kept : Nat → Json → Declaration → Prop where
  | missing {room : Nat} {json : Json} {constant : Bool} {name : String}
      (fields : json.fields? ["is_constant", "identifier", "value"] =
        some [some (.bool constant), some (.text (some name)), none]) :
      Kept (room + 1) json ⟨constant, name, none⟩
  | null {room : Nat} {json : Json} {constant : Bool} {name : String}
      (fields : json.fields? ["is_constant", "identifier", "value"] =
        some [some (.bool constant), some (.text (some name)), some .null]) :
      Kept (room + 1) json ⟨constant, name, none⟩
  | value {room : Nat} {json v : Json} {constant : Bool} {name : String} {e : Expr}
      (fields : json.fields? ["is_constant", "identifier", "value"] =
        some [some (.bool constant), some (.text (some name)), some v])
      (value : Expr.Kept room v e) :
      Kept (room + 1) json ⟨constant, name, some e⟩

theorem ofJson?_eq_some_iff {room : Nat} {json : Json} {d : Declaration} :
    ofJson? room json = some d ↔ Kept room json d := by
  cases room with
  | zero => exact ⟨fun h => (nomatch h), fun h => (nomatch h)⟩
  | succ room =>
    rw [ofJson?]
    constructor
    · intro h
      obtain ⟨fields, hfields, h⟩ := Option.bind_eq_some_iff.1 h
      split at h
      · cases h
        exact .missing hfields
      · cases h
        exact .null hfields
      · obtain ⟨e, he, h⟩ := Option.bind_eq_some_iff.1 h
        cases h
        exact .value hfields (Expr.ofJson?_eq_some_iff.1 he)
      · cases h
    · intro h
      cases h with
      | missing fields => simp [fields]
      | null fields => simp [fields]
      | @value _ _ v constant name e fields value =>
        have hread := Expr.ofJson?_eq_some_iff.2 value
        rw [fields]
        -- null says that there is no tree, and keeps none
        cases v with
        | null => cases value <;> contradiction
        | _ => simp [hread]

end Declaration

namespace Statement

inductive Kept : Nat → Json → Statement → Prop where
  | declaration {room : Nat} {json content : Json} {d : Declaration}
      (case : json.case? = some ("VarDeclaration", content)) (kept : d.Kept room content) :
      Kept (room + 1) json (declaration d)
  | expression {room : Nat} {json content : Json} {e : Expr}
      (case : json.case? = some ("Expr", content)) (kept : e.Kept room content) :
      Kept (room + 1) json (expression e)

theorem ofJson?_eq_some_iff {room : Nat} {json : Json} {s : Statement} :
    ofJson? room json = some s ↔ Kept room json s := by
  cases room with
  | zero => exact ⟨fun h => (nomatch h), fun h => (nomatch h)⟩
  | succ room =>
    rw [ofJson?]
    constructor
    · intro h
      obtain ⟨⟨tag, content⟩, hcase, h⟩ := Option.bind_eq_some_iff.1 h
      dsimp only at h
      split at h
      · next htag =>
        subst htag
        obtain ⟨d, hd, rfl⟩ := Option.map_eq_some_iff.1 h
        exact .declaration hcase (Declaration.ofJson?_eq_some_iff.1 hd)
      split at h
      · next htag =>
        subst htag
        obtain ⟨e, he, rfl⟩ := Option.map_eq_some_iff.1 h
        exact .expression hcase (Expr.ofJson?_eq_some_iff.1 he)
      · cases h
    · intro h
      cases h with
      | declaration case kept => simp [case, Declaration.ofJson?_eq_some_iff.2 kept]
      | expression case kept => simp [case, Expr.ofJson?_eq_some_iff.2 kept]

theorem mapM_eq_some_iff {room : Nat} {items : List Json} {ss : List Statement} :
    items.mapM (ofJson? room) = some ss ↔ List.Forall₂ (Kept room) items ss := by
  simp only [Json.mapM_eq_some_iff, ofJson?_eq_some_iff]

end Statement

namespace Program

inductive Kept : Nat → Json → Program → Prop where
  | body {room : Nat} {json : Json} {items : List Json} {ss : List Statement}
      (fields : json.fields? ["body"] = some [some (.array items)])
      (kept : List.Forall₂ (Statement.Kept room) items ss) :
      Kept (room + 2) json ⟨ss⟩

theorem ofJson?_eq_some_iff {room : Nat} {json : Json} {p : Program} :
    ofJson? room json = some p ↔ Kept room json p := by
  match room with
  | 0 | 1 => exact ⟨fun h => (nomatch h), fun h => (nomatch h)⟩
  | room + 2 =>
    rw [ofJson?]
    constructor
    · intro h
      obtain ⟨fields, hfields, h⟩ := Option.bind_eq_some_iff.1 h
      split at h
      · obtain ⟨ss, hss, h⟩ := Option.bind_eq_some_iff.1 h
        cases h
        exact .body hfields (Statement.mapM_eq_some_iff.1 hss)
      · cases h
    · intro h
      cases h with
      | body fields kept => simp [fields, Statement.mapM_eq_some_iff.2 kept]

end Program

end LetArith
