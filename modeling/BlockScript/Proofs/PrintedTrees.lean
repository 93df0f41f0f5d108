import BlockScript.Proofs.Exactness
import BlockScript.Proofs.LongestMatch
import BlockScript.Proofs.NumberText
import BlockScript.Proofs.Outline

/-!
# A printed program identifies its tree

Programs that are shown alike are the same but for the places of their nodes. There are three steps
from the text to the tree. The text is one of nested lists, which can be read back if their words
can be told apart. In a list the first word and the number of members tell what node it shows: both
minus signs are written alike, but one of them has a single operand. And a word that is not in front
of a list is a constant or a name, and no name is written as a constant is.

The last step is where it matters that the program was read from a source. A name is the text of an
identifier, so it has letters, digits and underscores only, starts with no digit and is no keyword.
The nodes that a `for` loop adds have no names at all. A text constant, on the other hand, is shown
without quotes and could be anything, and what is not finite is shown as a word that could be a
name, so those are left out.

## Main definitions

* `Expr.outline`, `Stmt.outline` — trees as nested lists
* `IsName`, `Constant.Plain`, `Node.Plain` — names and constants that can be told apart
* `Node.Named` — the names of a node are among its words

## Main results

* `Expr.text_outline`, `Stmt.text_outline` — the texts of trees are those of nested lists
* `Expr.same_of_outline`, `Stmt.same_of_outline` — trees that are shown alike are the same
* `Grammar.Program.named` — the names of a program are identifiers
* `same_of_render_eq` — a printed program identifies its tree
-/

namespace BlockScript
mutual

/-- An expression as nested lists. -/
def Expr.outline : Expr → Outline
  | .literal _ value => .word value.display
  | .ident _ name => .word name
  | .assign _ name value => .list [.word "=", .word name, value.outline]
  | .unary _ op operand => .list [.word op.spelling, operand.outline]
  | .binary _ op left right => .list [.word op.spelling, left.outline, right.outline]
  | .logical _ op left right => .list [.word op.spelling, left.outline, right.outline]
  | .group _ inner => .list [.word "group", inner.outline]
  | .call _ _ callee args => .list (.word "call" :: callee.outline :: Expr.outlines args)

/-- The expressions of a sequence, one by one. -/
def Expr.outlines : List Expr → List Outline
  | [] => []
  | e :: es => e.outline :: Expr.outlines es

end

mutual

/-- A statement as nested lists. -/
def Stmt.outline : Stmt → Outline
  | .block _ body => .list (.word "block" :: Stmt.outlines body)
  | .expr _ value => .list [.word ";", value.outline]
  | .func _ name params body =>
    .list (.word "func" :: .word name :: .list (params.map .word) :: Stmt.outlines body)
  | .ifThen _ cond yes => .list [.word "if", cond.outline, yes.outline]
  | .ifElse _ cond yes no => .list [.word "if", cond.outline, yes.outline, no.outline]
  | .print _ value => .list [.word "print", value.outline]
  | .ret _ value => .list (.word "return" :: Expr.outlines value.toList)
  | .var _ name value => .list (.word "var" :: .word name :: Expr.outlines value.toList)
  | .whileDo _ cond body => .list [.word "while", cond.outline, body.outline]

/-- The statements of a sequence, one by one. -/
def Stmt.outlines : List Stmt → List Outline
  | [] => []
  | s :: ss => s.outline :: Stmt.outlines ss

end

@[simp] theorem Expr.outlines_eq (es : List Expr) : Expr.outlines es = es.map Expr.outline := by
  induction es with
  | nil => rfl
  | cons e es ih => rw [Expr.outlines, ih, List.map_cons]

@[simp] theorem Stmt.outlines_eq (ss : List Stmt) : Stmt.outlines ss = ss.map Stmt.outline := by
  induction ss with
  | nil => rfl
  | cons s ss ih => rw [Stmt.outlines, ih, List.map_cons]

@[simp] theorem Expr.renderAll_eq (es : List Expr) : Expr.renderAll es = es.map Expr.render := by
  induction es with
  | nil => rfl
  | cons e es ih => rw [Expr.renderAll, ih, List.map_cons]

@[simp] theorem Stmt.renderAll_eq (ss : List Stmt) : Stmt.renderAll ss = ss.map Stmt.render := by
  induction ss with
  | nil => rfl
  | cons s ss ih => rw [Stmt.renderAll, ih, List.map_cons]

namespace Expr

/-- What stands before the parts of an expression. -/
def lead : Expr → List Outline
  | .literal _ value => [.word value.display]
  | .ident _ name => [.word name]
  | .assign _ name _ => [.word "=", .word name]
  | .unary _ op _ => [.word op.spelling]
  | .binary _ op .. => [.word op.spelling]
  | .logical _ op .. => [.word op.spelling]
  | .group .. => [.word "group"]
  | .call .. => [.word "call"]

/-- An expression is shown as a word, or as a list of what stands before its parts and of the
parts. -/
theorem outline_cases (e : Expr) :
    (e.lead = [e.outline] ∧ e.outline.text = e.render) ∨
      (e.outline = .list (e.lead ++ e.parts.map outline) ∧
        e.render =
          "(" ++ " ".intercalate (e.lead.map Outline.text ++ e.parts.map render) ++ ")") := by
  cases e with
  | literal | ident => exact .inl ⟨rfl, rfl⟩
  | call => exact .inr ⟨by rw [outline, outlines_eq]; rfl, by rw [render, renderAll_eq]; rfl⟩
  | assign | unary | binary | logical | group => exact .inr ⟨rfl, rfl⟩

theorem text_outline (e : Expr) : e.outline.text = e.render := by
  induction e using Expr.byParts with
  | h e ih =>
    rcases e.outline_cases with ⟨-, hleaf⟩ | ⟨hlist, hrender⟩
    · exact hleaf
    · have hparts : e.parts.map (Outline.text ∘ outline) = e.parts.map render :=
        List.map_congr_left ih
      rw [hlist, hrender, Outline.text, Outline.texts_eq, List.map_append, List.map_map, hparts]

end Expr

namespace Stmt

/-- What stands before the parts of a statement. -/
def lead : Stmt → List Outline
  | .block .. => [.word "block"]
  | .expr .. => [.word ";"]
  | .func _ name params _ => [.word "func", .word name, .list (params.map .word)]
  | .ifThen .. | .ifElse .. => [.word "if"]
  | .print .. => [.word "print"]
  | .ret .. => [.word "return"]
  | .var _ name _ => [.word "var", .word name]
  | .whileDo .. => [.word "while"]

/-- A statement is shown as a list of what stands before its parts and of the parts. -/
theorem outline_eq (s : Stmt) :
    s.outline = .list (s.lead ++ (s.exprs.map Expr.outline ++ s.parts.map outline)) := by
  cases s <;> simp [outline, lead, exprs, parts]

theorem render_eq (s : Stmt) :
    s.render = "(" ++ " ".intercalate
      (s.lead.map Outline.text ++ (s.exprs.map Expr.render ++ s.parts.map render)) ++ ")" := by
  cases s with
  | func span name params body =>
    have hparams : params.map (Outline.text ∘ Outline.word) = params := List.map_id params
    simp [render, parenthesized, lead, exprs, parts, Outline.text, hparams]
  | _ => simp [render, parenthesized, lead, exprs, parts, Outline.text]

theorem text_outline (s : Stmt) : s.outline.text = s.render := by
  induction s using Stmt.byParts with
  | h s ih =>
    have hexprs : s.exprs.map (Outline.text ∘ Expr.outline) = s.exprs.map Expr.render :=
      List.map_congr_left fun e _ => e.text_outline
    have hparts : s.parts.map (Outline.text ∘ outline) = s.parts.map render :=
      List.map_congr_left ih
    rw [outline_eq, render_eq, Outline.text, Outline.texts_eq, List.map_append, List.map_append,
      List.map_map, List.map_map, hexprs, hparts]

end Stmt

/-! ## Words -/

/-- Texts that can be names: identifiers that are no keywords. -/
structure IsName (name : String) : Prop where
  pattern : name.toList ∈ Token.Kind.pattern .identifier
  not_keyword : ∀ keyword : Keyword, name ≠ keyword.spelling

/-- Constants whose texts can be told apart. -/
def Constant.Plain : Constant → Prop
  | .nil | .bool _ => True
  | .number value => value.isFinite = true
  | .text _ => False

instance (value : Constant) : Decidable value.Plain :=
  match value with
  | .nil | .bool _ => isTrue trivial
  | .number x => inferInstanceAs (Decidable (x.isFinite = true))
  | .text _ => isFalse id

theorem isBreak_of_isWordPart {c : Char} (h : Piece.isWordPart c = true) :
    Outline.isBreak c = false := by
  by_contra hbreak
  simp only [Outline.isBreak, Bool.not_eq_false, Bool.or_eq_true, decide_eq_true_eq] at hbreak
  rcases hbreak with ((rfl | rfl) | rfl) | rfl <;> exact absurd h (by decide)

theorem isWord_of_mem_identifier {text : String}
    (h : text.toList ∈ Token.Kind.pattern .identifier) : Outline.isWord text = true := by
  obtain ⟨c, cs, htext, hc, hcs⟩ := Piece.mem_pattern_identifier.mp h
  refine Outline.isWord_iff.mpr ⟨?_, ?_⟩
  · rintro rfl
    exact absurd htext (by simp)
  · rw [htext]
    refine List.forall_mem_cons.mpr ⟨isBreak_of_isWordPart ?_, fun d hd => ?_⟩
    · rw [Piece.isWordPart, hc, Bool.true_or]
    · exact isBreak_of_isWordPart (hcs d hd)

theorem IsName.isWord {name : String} (h : IsName name) : Outline.isWord name = true :=
  isWord_of_mem_identifier h.pattern

theorem isWord_text {x : Float} (h : x.isFinite = true) :
    Outline.isWord (Numeral.text x) = true := by
  obtain ⟨c, cs, htext, hc, hcs⟩ := Numeral.chars_text h
  have hdigit {d : Char} (hd : Numeral.isDigit d = true) : Outline.isBreak d = false :=
    isBreak_of_isWordPart (by rw [Piece.isWordPart, hd, Bool.or_true])
  refine Outline.isWord_iff.mpr ⟨?_, ?_⟩
  · intro hempty
    exact absurd htext (by simp [hempty])
  · rw [htext]
    refine List.forall_mem_cons.mpr ⟨?_, fun d hd => ?_⟩
    · rcases hc with hc | rfl
      · exact hdigit hc
      · rfl
    · rcases hcs d hd with hd | rfl
      · exact hdigit hd
      · rfl

/-- The text of a finite number starts as no name and no keyword does. -/
theorem text_ne_of_mem_identifier {x : Float} (h : x.isFinite = true) {text : String}
    (htext : text.toList ∈ Token.Kind.pattern .identifier) : Numeral.text x ≠ text := by
  obtain ⟨c, cs, hnumber, hc, -⟩ := Numeral.chars_text h
  obtain ⟨d, ds, hname, hd, -⟩ := Piece.mem_pattern_identifier.mp htext
  rintro rfl
  obtain ⟨rfl, -⟩ := List.cons.inj (hnumber.symm.trans hname)
  have hlead := Piece.lead_of_isWordStart hd
  rcases hc with hc | rfl
  · rw [Piece.lead_of_isDigit hc] at hlead
    exact nomatch hlead
  · exact nomatch hlead

/-- The constant that a keyword stands for. -/
def Keyword.constant? : Keyword → Option Constant
  | .nilWord => some .nil
  | .trueWord => some (.bool true)
  | .falseWord => some (.bool false)
  | _ => none

/-- A constant is written as a keyword, or it is a finite number. -/
theorem Constant.Plain.cases {value : Constant} (h : value.Plain) :
    (∃ keyword : Keyword, keyword.constant? = some value ∧ value.display = keyword.spelling) ∨
      ∃ x, value = .number x ∧ x.isFinite = true := by
  cases value with
  | nil => exact .inl ⟨.nilWord, rfl, rfl⟩
  | bool value =>
    cases value with
    | false => exact .inl ⟨.falseWord, rfl, rfl⟩
    | true => exact .inl ⟨.trueWord, rfl, rfl⟩
  | number x => exact .inr ⟨x, rfl, h⟩
  | text => exact h.elim

theorem Constant.Plain.isWord {value : Constant} (h : value.Plain) :
    Outline.isWord value.display = true := by
  rcases h.cases with ⟨keyword, -, hdisplay⟩ | ⟨x, rfl, hx⟩
  · rw [hdisplay]
    exact isWord_of_mem_identifier (Piece.keyword_mem_identifier keyword)
  · exact isWord_text hx

theorem Constant.Plain.display_ne {value : Constant} (h : value.Plain) {name : String}
    (hname : IsName name) : value.display ≠ name := by
  rcases h.cases with ⟨keyword, -, hdisplay⟩ | ⟨x, rfl, hx⟩
  · rw [hdisplay]
    exact (hname.not_keyword keyword).symm
  · exact text_ne_of_mem_identifier hx hname.pattern

/-- **Different constants have different texts.** -/
theorem Constant.Plain.eq_of_display {value value' : Constant} (h : value.Plain) (h' : value'.Plain)
    (heq : value.display = value'.display) : value = value' := by
  rcases h.cases with ⟨keyword, hvalue, hdisplay⟩ | ⟨x, rfl, hx⟩ <;>
    rcases h'.cases with ⟨keyword', hvalue', hdisplay'⟩ | ⟨x', rfl, hx'⟩
  · rw [hdisplay, hdisplay'] at heq
    obtain rfl : keyword = keyword' := by
      have hkeywords := congrArg Keyword.ofSpelling? heq
      rwa [Piece.ofSpelling?_spelling, Piece.ofSpelling?_spelling, Option.some.injEq] at hkeywords
    exact Option.some.inj (hvalue.symm.trans hvalue')
  · rw [hdisplay] at heq
    exact absurd heq.symm (text_ne_of_mem_identifier hx' (Piece.keyword_mem_identifier keyword))
  · rw [hdisplay'] at heq
    exact absurd heq (text_ne_of_mem_identifier hx (Piece.keyword_mem_identifier keyword'))
  · exact congrArg Constant.number (Numeral.eq_of_text_eq hx hx' heq)

/-! ## Trees that can be read back -/

/-- The names and the constant of a node itself can be told apart by their texts. -/
def Node.Plain : Node → Prop
  | .expr (.literal _ value) => value.Plain
  | .expr (.ident _ name) | .expr (.assign _ name _) | .stmt (.var _ name _) => IsName name
  | .stmt (.func _ name params _) => IsName name ∧ ∀ param ∈ params, IsName param
  | _ => True

theorem UnaryOp.isWord_spelling (op : UnaryOp) : Outline.isWord op.spelling = true := by
  cases op <;> rfl

theorem BinaryOp.isWord_spelling (op : BinaryOp) : Outline.isWord op.spelling = true := by
  cases op <;> rfl

theorem LogicalOp.isWord_spelling (op : LogicalOp) : Outline.isWord op.spelling = true := by
  cases op <;> rfl

namespace Expr

theorem legible_lead {e : Expr} (h : Node.Plain (.expr e)) : ∀ o ∈ e.lead, o.Legible := by
  cases e with
  | literal span value => exact List.forall_mem_singleton.mpr (.word (Constant.Plain.isWord h))
  | ident span name => exact List.forall_mem_singleton.mpr (.word (IsName.isWord h))
  | assign span name value =>
    exact List.forall_mem_cons.mpr ⟨.word rfl,
      List.forall_mem_singleton.mpr (.word (IsName.isWord h))⟩
  | unary span op => exact List.forall_mem_singleton.mpr (.word op.isWord_spelling)
  | binary span op => exact List.forall_mem_singleton.mpr (.word op.isWord_spelling)
  | logical span op => exact List.forall_mem_singleton.mpr (.word op.isWord_spelling)
  | group | call => exact List.forall_mem_singleton.mpr (.word rfl)

/-- The text of an expression of plain nodes can be read back. -/
theorem legible_outline {e : Expr} (h : e.Each Node.Plain) : e.outline.Legible := by
  induction e using Expr.byParts with
  | h e ih =>
    obtain ⟨hself, hparts⟩ := each_iff.mp h
    have hlead := legible_lead hself
    rcases e.outline_cases with ⟨hleaf, -⟩ | ⟨hlist, -⟩
    · rw [hleaf] at hlead
      exact List.forall_mem_singleton.mp hlead
    · rw [hlist]
      exact .list (List.forall_mem_append.mpr ⟨hlead,
        List.forall_mem_map.mpr fun part hpart => ih part hpart (hparts part hpart)⟩)

end Expr

namespace Stmt

theorem legible_lead {s : Stmt} (h : Node.Plain (.stmt s)) : ∀ o ∈ s.lead, o.Legible := by
  cases s with
  | func span name params body =>
    obtain ⟨hname, hparams⟩ := h
    have hlist : Outline.Legible (.list (params.map .word)) :=
      .list (List.forall_mem_map.mpr fun param hparam => .word (hparams param hparam).isWord)
    exact List.forall_mem_cons.mpr ⟨.word rfl, List.forall_mem_cons.mpr
      ⟨.word hname.isWord, List.forall_mem_singleton.mpr hlist⟩⟩
  | var span name value =>
    exact List.forall_mem_cons.mpr ⟨.word rfl,
      List.forall_mem_singleton.mpr (.word (IsName.isWord h))⟩
  | block | expr | ifThen | ifElse | print | ret | whileDo =>
    exact List.forall_mem_singleton.mpr (.word rfl)

/-- The text of a statement of plain nodes can be read back. -/
theorem legible_outline {s : Stmt} (h : s.Each Node.Plain) : s.outline.Legible := by
  induction s using Stmt.byParts with
  | h s ih =>
    obtain ⟨hself, hexprs, hparts⟩ := each_iff.mp h
    have hexprs : ∀ o ∈ s.exprs.map Expr.outline, o.Legible :=
      List.forall_mem_map.mpr fun e he => Expr.legible_outline (hexprs e he)
    have hparts : ∀ o ∈ s.parts.map outline, o.Legible :=
      List.forall_mem_map.mpr fun part hpart => ih part hpart (hparts part hpart)
    rw [outline_eq]
    exact .list (List.forall_mem_append.mpr
      ⟨legible_lead hself, List.forall_mem_append.mpr ⟨hexprs, hparts⟩⟩)

end Stmt

/-! ## Trees told apart -/

theorem UnaryOp.eq_of_spelling {op op' : UnaryOp} (h : op.spelling = op'.spelling) : op = op' := by
  cases op <;> cases op' <;> simp [spelling] at h ⊢

theorem BinaryOp.eq_of_spelling {op op' : BinaryOp} (h : op.spelling = op'.spelling) :
    op = op' := by
  cases op <;> cases op' <;> simp [spelling] at h ⊢

theorem LogicalOp.eq_of_spelling {op op' : LogicalOp} (h : op.spelling = op'.spelling) :
    op = op' := by
  cases op <;> cases op' <;> simp [spelling] at h ⊢

theorem forall₂_of_map_eq {α β : Type} {f : α → β} {R : α → α → Prop} {as bs : List α}
    (hR : ∀ a ∈ as, ∀ b ∈ bs, f a = f b → R a b) (h : as.map f = bs.map f) :
    List.Forall₂ R as bs := by
  induction as generalizing bs with
  | nil =>
    obtain rfl : bs = [] := List.map_eq_nil_iff.mp h.symm
    exact .nil
  | cons a as ih =>
    cases bs with
    | nil => exact nomatch h
    | cons b bs =>
      obtain ⟨hhead, htail⟩ := List.cons.inj h
      refine .cons (hR a List.mem_cons_self b List.mem_cons_self hhead) (ih ?_ htail)
      exact fun a ha b hb => hR a (List.mem_cons_of_mem _ ha) b (List.mem_cons_of_mem _ hb)

theorem rel_of_map_toList_eq {α β : Type} {f : α → β} {R : α → α → Prop} {a b : Option α}
    (hR : ∀ x ∈ a.toList, ∀ y ∈ b.toList, f x = f y → R x y)
    (h : a.toList.map f = b.toList.map f) : Option.Rel R a b := by
  have hlists := forall₂_of_map_eq hR h
  cases a with
  | none =>
    cases b with
    | none => exact .none
    | some y => exact nomatch hlists
  | some x =>
    cases b with
    | none => exact nomatch hlists
    | some y => exact .some (List.forall₂_cons.mp hlists).1

namespace Expr

/-- If expressions are shown alike, the first word and the number of parts tell that they are of the
same kind. -/
theorem same_of_parts {a b : Expr} (ha : Node.Plain (.expr a)) (hb : Node.Plain (.expr b))
    (hparts : ∀ x ∈ a.parts, ∀ y ∈ b.parts, x.outline = y.outline → x.Same y)
    (h : a.outline = b.outline) : a.Same b := by
  cases a with
  | literal span value =>
    cases b with
    | literal span' value' =>
      obtain rfl := Constant.Plain.eq_of_display ha hb (Outline.word.inj h)
      exact .literal (anyPlace _ _)
    | ident span' name => exact absurd (Outline.word.inj h) (Constant.Plain.display_ne ha hb)
    | _ => exact nomatch h
  | ident span name =>
    cases b with
    | literal span' value =>
      exact absurd (Outline.word.inj h).symm (Constant.Plain.display_ne hb ha)
    | ident span' name' =>
      obtain rfl := Outline.word.inj h
      exact .ident (anyPlace _ _)
    | _ => exact nomatch h
  | assign span name value =>
    cases b with
    | assign span' name' value' =>
      simp only [outline, Outline.list.injEq, List.cons.injEq, Outline.word.injEq, and_true] at h
      obtain ⟨-, rfl, hvalue⟩ := h
      exact .assign (anyPlace _ _) (hparts _ (.head _) _ (.head _) hvalue)
    | binary span' op => cases op <;> simp [outline, BinaryOp.spelling] at h
    | logical span' op => cases op <;> simp [outline, LogicalOp.spelling] at h
    | _ => simp [outline] at h
  | unary span op operand =>
    cases b with
    | unary span' op' operand' =>
      simp only [outline, Outline.list.injEq, List.cons.injEq, Outline.word.injEq, and_true] at h
      obtain ⟨hop, hoperand⟩ := h
      obtain rfl := UnaryOp.eq_of_spelling hop
      exact .unary (anyPlace _ _) (hparts _ (.head _) _ (.head _) hoperand)
    | group | call => cases op <;> simp [outline, UnaryOp.spelling] at h
    | _ => simp [outline] at h
  | binary span op left right =>
    cases b with
    | binary span' op' left' right' =>
      simp only [outline, Outline.list.injEq, List.cons.injEq, Outline.word.injEq, and_true] at h
      obtain ⟨hop, hleft, hright⟩ := h
      obtain rfl := BinaryOp.eq_of_spelling hop
      exact .binary (anyPlace _ _) (hparts _ (.head _) _ (.head _) hleft)
        (hparts _ (.tail _ (.head _)) _ (.tail _ (.head _)) hright)
    | assign | call => cases op <;> simp [outline, BinaryOp.spelling] at h
    | logical span' op' =>
      cases op <;> cases op' <;> simp [outline, BinaryOp.spelling, LogicalOp.spelling] at h
    | _ => simp [outline] at h
  | logical span op left right =>
    cases b with
    | logical span' op' left' right' =>
      simp only [outline, Outline.list.injEq, List.cons.injEq, Outline.word.injEq, and_true] at h
      obtain ⟨hop, hleft, hright⟩ := h
      obtain rfl := LogicalOp.eq_of_spelling hop
      exact .logical (anyPlace _ _) (hparts _ (.head _) _ (.head _) hleft)
        (hparts _ (.tail _ (.head _)) _ (.tail _ (.head _)) hright)
    | assign | call => cases op <;> simp [outline, LogicalOp.spelling] at h
    | binary span' op' =>
      cases op <;> cases op' <;> simp [outline, BinaryOp.spelling, LogicalOp.spelling] at h
    | _ => simp [outline] at h
  | group span inner =>
    cases b with
    | group span' inner' =>
      simp only [outline, Outline.list.injEq, List.cons.injEq, and_true, true_and] at h
      exact .group (anyPlace _ _) (hparts _ (.head _) _ (.head _) h)
    | unary span' op => cases op <;> simp [outline, UnaryOp.spelling] at h
    | _ => simp [outline] at h
  | call span paren callee args =>
    cases b with
    | call span' paren' callee' args' =>
      simp only [outline, outlines_eq, Outline.list.injEq, List.cons.injEq, true_and] at h
      obtain ⟨hcallee, hargs⟩ := h
      exact .call_of_forall₂ (anyPlace _ _) (anyPlace _ _)
        (hparts _ (.head _) _ (.head _) hcallee)
        (forall₂_of_map_eq (fun x hx y hy => hparts x (.tail _ hx) y (.tail _ hy)) hargs)
    | unary span' op => cases op <;> simp [outline, UnaryOp.spelling] at h
    | binary span' op => cases op <;> simp [outline, BinaryOp.spelling] at h
    | logical span' op => cases op <;> simp [outline, LogicalOp.spelling] at h
    | _ => simp [outline] at h

/-- **Expressions that are shown alike are the same.** -/
theorem same_of_outline {a b : Expr} (ha : a.Each Node.Plain) (hb : b.Each Node.Plain)
    (h : a.outline = b.outline) : a.Same b := by
  induction a using Expr.byParts generalizing b with
  | h a ih =>
    obtain ⟨ha, haparts⟩ := each_iff.mp ha
    obtain ⟨hb, hbparts⟩ := each_iff.mp hb
    exact same_of_parts ha hb
      (fun x hx y hy => ih x hx (haparts x hx) (hbparts y hy)) h

end Expr

namespace Stmt

/-- If statements are shown alike, the first word and the number of parts tell that they are of the
same kind. -/
theorem same_of_parts {a b : Stmt}
    (hexprs : ∀ x ∈ a.exprs, ∀ y ∈ b.exprs, x.outline = y.outline → x.Same y)
    (hparts : ∀ x ∈ a.parts, ∀ y ∈ b.parts, x.outline = y.outline → x.Same y)
    (h : a.outline = b.outline) : a.Same b := by
  cases a with
  | block span body =>
    cases b with
    | block span' body' =>
      simp only [outline, outlines_eq, Outline.list.injEq, List.cons.injEq, true_and] at h
      exact .block_of_forall₂ (anyPlace _ _) (forall₂_of_map_eq hparts h)
    | _ => simp [outline] at h
  | expr span value =>
    cases b with
    | expr span' value' =>
      simp only [outline, Outline.list.injEq, List.cons.injEq, and_true, true_and] at h
      exact .expr (anyPlace _ _) (hexprs _ (.head _) _ (.head _) h)
    | _ => simp [outline] at h
  | func span name params body =>
    cases b with
    | func span' name' params' body' =>
      simp only [outline, outlines_eq, Outline.list.injEq, List.cons.injEq, Outline.word.injEq,
        true_and] at h
      obtain ⟨rfl, hparams, hbody⟩ := h
      obtain rfl : params = params' :=
        List.map_injective_iff.mpr (fun _ _ => Outline.word.inj) hparams
      exact .func_of_forall₂ (anyPlace _ _) (forall₂_of_map_eq hparts hbody)
    | _ => simp [outline] at h
  | ifThen span cond yes =>
    cases b with
    | ifThen span' cond' yes' =>
      simp only [outline, Outline.list.injEq, List.cons.injEq, and_true, true_and] at h
      exact .ifThen (anyPlace _ _) (hexprs _ (.head _) _ (.head _) h.1)
        (hparts _ (.head _) _ (.head _) h.2)
    | _ => simp [outline] at h
  | ifElse span cond yes no =>
    cases b with
    | ifElse span' cond' yes' no' =>
      simp only [outline, Outline.list.injEq, List.cons.injEq, and_true, true_and] at h
      obtain ⟨hcond, hyes, hno⟩ := h
      exact .ifElse (anyPlace _ _) (hexprs _ (.head _) _ (.head _) hcond)
        (hparts _ (.head _) _ (.head _) hyes)
        (hparts _ (.tail _ (.head _)) _ (.tail _ (.head _)) hno)
    | _ => simp [outline] at h
  | print span value =>
    cases b with
    | print span' value' =>
      simp only [outline, Outline.list.injEq, List.cons.injEq, and_true, true_and] at h
      exact .print (anyPlace _ _) (hexprs _ (.head _) _ (.head _) h)
    | _ => simp [outline] at h
  | ret span value =>
    cases b with
    | ret span' value' =>
      simp only [outline, Expr.outlines_eq, Outline.list.injEq, List.cons.injEq, true_and] at h
      exact .ret (anyPlace _ _) (rel_of_map_toList_eq hexprs h)
    | _ => simp [outline] at h
  | var span name value =>
    cases b with
    | var span' name' value' =>
      simp only [outline, Expr.outlines_eq, Outline.list.injEq, List.cons.injEq, Outline.word.injEq,
        true_and] at h
      obtain ⟨rfl, hvalue⟩ := h
      exact .var (anyPlace _ _) (rel_of_map_toList_eq hexprs hvalue)
    | _ => simp [outline] at h
  | whileDo span cond body =>
    cases b with
    | whileDo span' cond' body' =>
      simp only [outline, Outline.list.injEq, List.cons.injEq, and_true, true_and] at h
      exact .whileDo (anyPlace _ _) (hexprs _ (.head _) _ (.head _) h.1)
        (hparts _ (.head _) _ (.head _) h.2)
    | _ => simp [outline] at h

/-- **Statements that are shown alike are the same.** -/
theorem same_of_outline {a b : Stmt} (ha : a.Each Node.Plain) (hb : b.Each Node.Plain)
    (h : a.outline = b.outline) : a.Same b := by
  induction a using Stmt.byParts generalizing b with
  | h a ih =>
    obtain ⟨-, haexprs, haparts⟩ := each_iff.mp ha
    obtain ⟨-, hbexprs, hbparts⟩ := each_iff.mp hb
    exact same_of_parts
      (fun x hx y hy => Expr.same_of_outline (haexprs x hx) (hbexprs y hy))
      (fun x hx y hy => ih x hx (haparts x hx) (hbparts y hy)) h

end Stmt

/-- **Programs that are shown alike are the same.** -/
theorem Program.same_of_render {p q : Program} (hp : ∀ node ∈ p.nodes, node.Plain)
    (hq : ∀ node ∈ q.nodes, node.Plain) (h : p.render = q.render) :
    List.Forall₂ Stmt.Same p q := by
  have heach {program : Program} (hplain : ∀ node ∈ program.nodes, node.Plain) :
      ∀ s ∈ program, s.Each Node.Plain := fun s hs node hnode =>
    hplain node (Program.mem_nodes.mpr ⟨s, hs, hnode⟩)
  have hread {program : Program} (hplain : ∀ node ∈ program.nodes, node.Plain) :
      Outline.read program.render = program.map Stmt.outline := by
    have hlines : program.render =
        String.join ((program.map Stmt.outline).map fun o => o.text ++ "\n") := by
      rw [Program.render, Stmt.renderAll_eq, List.map_map, List.map_map]
      exact congrArg String.join
        (List.map_congr_left fun s _ => congrArg (· ++ "\n") s.text_outline.symm)
    rw [hlines]
    exact Outline.read_lines
      (List.forall_mem_map.mpr fun s hs => Stmt.legible_outline (heach hplain s hs))
  have houtlines : p.map Stmt.outline = q.map Stmt.outline := by rw [← hread hp, ← hread hq, h]
  exact forall₂_of_map_eq (fun a ha b hb => Stmt.same_of_outline (heach hp a ha) (heach hq b hb))
    houtlines

/-! ## Names in programs -/

/-- The name is the text of an identifier among the words. -/
def Spells (words : List Token) (name : String) : Prop :=
  ∃ token ∈ words, token.kind = .identifier ∧ token.lexeme = name

/-- The names of a node itself are texts of identifiers. -/
def Node.Named (words : List Token) : Node → Prop
  | .expr (.ident _ name) | .expr (.assign _ name _) | .stmt (.var _ name _) => Spells words name
  | .stmt (.func _ name params _) => Spells words name ∧ ∀ param ∈ params, Spells words param
  | _ => True

theorem Spells.mono {words words' : List Token} {name : String} (h : Spells words name)
    (hwords : words ⊆ words') : Spells words' name := by
  obtain ⟨token, htoken, h⟩ := h
  exact ⟨token, hwords htoken, h⟩

theorem Node.Named.mono {words words' : List Token} {node : Node} (h : node.Named words)
    (hwords : words ⊆ words') : node.Named words' := by
  unfold Node.Named at h ⊢
  split at h
  · exact h.mono hwords
  · exact h.mono hwords
  · exact h.mono hwords
  · exact ⟨h.1.mono hwords, fun param hparam => (h.2 param hparam).mono hwords⟩
  · trivial

theorem Grammar.Expression.named {symbol : ExprSymbol} {words : List Token} {e : Expr}
    (h : Expression symbol words e) : Node.Named words (.expr e) := by
  induction h with
  | assign htarget => exact ⟨_, List.mem_cons_self, htarget, rfl⟩
  | operand _ ih | tightest _ ih | unaryCall _ ih => exact ih
  | @level level tighter words first operations _ _ _ ih =>
    rcases List.eq_nil_or_concat operations with rfl | ⟨front, last, rfl⟩
    · simpa using ih
    · rw [List.concat_eq_append, List.foldl_concat, Operation.apply]
      cases last.joint <;> trivial
  | @call words callee calls _ _ _ _ _ _ ih =>
    rcases List.eq_nil_or_concat calls with rfl | ⟨front, last, rfl⟩
    · simpa using ih
    · rw [List.concat_eq_append, List.foldl_concat]
      trivial
  | ident h => exact ⟨_, List.mem_singleton_self _, h, rfl⟩
  | not | negate | true | false | nil | literal | group => trivial

theorem Grammar.Statement.named {attaches : Bool → Prop} {symbol : StmtSymbol} {inside : Bool}
    {words : List Token} {s : Stmt} (h : Statement attaches symbol inside words s) :
    Node.Named words (.stmt s) := by
  induction h with
  | @funcDecl inside keyword name opening closing left right params words body _ hname _ hparams
      hwords =>
    refine ⟨⟨name, by simp, hname, rfl⟩, List.forall_mem_map.mpr fun param hparam => ?_⟩
    have hword : param ∈ words :=
      (hwords.isInfix [param] (List.mem_map_of_mem hparam)).subset (List.mem_singleton_self param)
    exact ⟨param, by simp [hword], hparams param hparam, rfl⟩
  | varDecl h =>
    cases h with
    | @mk keyword name _ _ _ _ hname => exact ⟨name, by simp, hname, rfl⟩
  | statement _ ih => exact ih
  | exprStmt h =>
    cases h with
    | mk => trivial
  | forStmt | ifThen | ifElse | printStmt | returnStmt | whileStmt | block => trivial

theorem Grammar.ForLoop.named_of_mem_added {attaches : Bool → Prop} {words : List Token}
    (loop : ForLoop attaches) {node : Node} (h : node ∈ loop.added) : node.Named words := by
  simp only [added, List.cons_append, List.mem_cons, List.mem_append, Option.mem_toList,
    Option.map_eq_some_iff] at h
  rcases h with rfl | rfl | ⟨e, -, rfl⟩ | h
  · trivial
  · trivial
  · trivial
  · split at h
    · rename_i hcond
      obtain rfl := List.mem_singleton.mp h
      rw [test, Option.isNone_iff_eq_none.mp hcond]
      trivial
    · exact absurd h List.not_mem_nil

/-- The names in a program are texts of identifiers. Those nodes that a `for` loop adds have no
names. -/
theorem Grammar.Program.named {attaches : Bool → Prop} {words : List Token}
    {program : BlockScript.Program} (h : Grammar.Program attaches words program) :
    ∀ node ∈ program.nodes, node.Named words := by
  intro node hnode
  rcases h.accounted node hnode with ⟨loop, -, -, hadded⟩ | ⟨part, hpart, hderived, -⟩
  · exact loop.named_of_mem_added hadded
  · refine Node.Named.mono ?_ hpart.subset
    cases node with
    | expr e =>
      obtain ⟨symbol, hexpression⟩ := hderived
      exact hexpression.named
    | stmt s =>
      obtain ⟨symbol, inside, hstatement⟩ := hderived
      exact hstatement.named

theorem isName_of_mem_words {source : String} {token : Token} (h : token ∈ words source)
    (hkind : token.kind = .identifier) : IsName token.lexeme := by
  have hfits := fits_of_mem_words h
  refine ⟨hkind ▸ hfits.pattern, fun keyword hkeyword => ?_⟩
  rw [← hfits.keyword, hkind] at hkeyword
  exact nomatch hkeyword

/-- In an accepted program the names can be told apart. What is left to ask for are the
constants. -/
theorem plain_of_parse {source : String} {program : Program} (h : parse source = .ok program)
    (hliterals : ∀ span value, Node.expr (.literal span value) ∈ program.nodes → value.Plain) :
    ∀ node ∈ program.nodes, node.Plain := by
  intro node hnode
  have hname {name : String} (hspells : Spells (words source) name) : IsName name := by
    obtain ⟨token, htoken, hkind, rfl⟩ := hspells
    exact isName_of_mem_words htoken hkind
  have hnamed := (parse_eq_ok_iff.mp h).2.named node hnode
  unfold Node.Plain
  split
  · exact hliterals _ _ hnode
  · exact hname hnamed
  · exact hname hnamed
  · exact hname hnamed
  · exact ⟨hname hnamed.1, fun param hparam => hname (hnamed.2 param hparam)⟩
  · trivial

/-- **A printed program identifies its tree**, if it was read from a source and all its constants
are plain: no texts, and finite numbers only. -/
theorem same_of_render_eq {s t : String} {p q : Program} (hp : parse s = .ok p)
    (hq : parse t = .ok q)
    (hs : ∀ span value, Node.expr (.literal span value) ∈ p.nodes → value.Plain)
    (ht : ∀ span value, Node.expr (.literal span value) ∈ q.nodes → value.Plain)
    (h : p.render = q.render) : List.Forall₂ Stmt.Same p q :=
  Program.same_of_render (plain_of_parse hp hs) (plain_of_parse hq ht) h

theorem same_of_render_eq_spaced :
    ∃ p q : Program, parse "var a = -1.50 - b;" = .ok p ∧ parse "var a=-1.5-b; // c" = .ok q ∧
      p.render = q.render ∧ List.Forall₂ Stmt.Same p q := by
  have hs : parse "var a = -1.50 - b;" = .ok [.var ⟨0, 18⟩ "a" (some (.binary ⟨8, 17⟩ .subtract
      (.unary ⟨8, 13⟩ .negate (.literal ⟨9, 13⟩ (.number (.ofScientific 150 true 2))))
      (.ident ⟨16, 17⟩ "b")))] := by with_unfolding_all rfl
  have ht : parse "var a=-1.5-b; // c" = .ok [.var ⟨0, 13⟩ "a" (some (.binary ⟨6, 12⟩ .subtract
      (.unary ⟨6, 10⟩ .negate (.literal ⟨7, 10⟩ (.number (.ofScientific 15 true 1))))
      (.ident ⟨11, 12⟩ "b")))] := by with_unfolding_all rfl
  refine ⟨_, _, hs, ht, by decide +kernel, same_of_render_eq hs ht ?_ ?_ (by decide +kernel)⟩
  · intro span value hmem
    obtain ⟨-, rfl⟩ : span = ⟨9, 13⟩ ∧ value = .number (.ofScientific 150 true 2) := by
      simpa [Program.nodes, Stmt.listNodes, Stmt.nodes, Expr.listNodes, Expr.nodes] using hmem
    decide +kernel
  · intro span value hmem
    obtain ⟨-, rfl⟩ : span = ⟨7, 10⟩ ∧ value = .number (.ofScientific 15 true 1) := by
      simpa [Program.nodes, Stmt.listNodes, Stmt.nodes, Expr.listNodes, Expr.nodes] using hmem
    decide +kernel

end BlockScript
