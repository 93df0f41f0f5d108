import BlockScript.Proofs.Grammar

/-!
# The dangling `else`

An `else` after nested `if` statements can belong to more than one of them. Asking that it belong to
the nearest one chooses among the trees of a word and takes no word away:
`Statement.exists_nearest`.

An open statement ends with an `if` that has no `else`, under any number of loops and `else`
branches. An `else` put after it goes down that path to the `if` at its end, which is
`Statement.absorb`. Moving every `else` in this way, from the inside out, turns any derivation into
one in which each `else` belongs to the nearest `if`.

## Main results

* `Grammar.Statement.absorb` — an `else` after an open statement can belong to an `if` inside it
* `Grammar.Program.exists_nearest` — a word of the grammar has a derivation with nearest `if`s
-/

namespace BlockScript

namespace Grammar

variable {attaches attaches' : Bool → Prop} {symbol : StmtSymbol} {inside isOpen : Bool}
  {words words' : List Token} {tree tree' : Stmt}

/-- If an `else` may belong to more `if`s, there are only more derivations. -/
theorem Statement.mono (h : Statement attaches symbol inside words tree)
    (himp : ∀ isOpen, attaches isOpen → attaches' isOpen) :
    Statement attaches' symbol inside words tree := by
  induction h with
  | funcDecl hkeyword hname hopening hparams hwords hcount hclosing hleft _ hright ih =>
    exact .funcDecl hkeyword hname hopening hparams hwords hcount hclosing hleft ih hright
  | varDecl h => exact .varDecl h
  | statement _ ih => exact .statement ih
  | exprStmt h => exact .exprStmt h
  | forStmt hkeyword hopening hinit hcond hsemicolon hstep hclosing _ ih =>
    exact .forStmt hkeyword hopening hinit hcond hsemicolon hstep hclosing ih
  | ifThen hkeyword hopening hcond hclosing _ ih =>
    exact .ifThen hkeyword hopening hcond hclosing ih
  | ifElse hkeyword hopening hcond hclosing _ hopen hother _ ih ih' =>
    exact .ifElse hkeyword hopening hcond hclosing ih (himp _ hopen) hother ih'
  | printStmt hkeyword hvalue hsemicolon => exact .printStmt hkeyword hvalue hsemicolon
  | returnStmt hkeyword hvalue hsemicolon => exact .returnStmt hkeyword hvalue hsemicolon
  | whileStmt hkeyword hopening hcond hclosing _ ih =>
    exact .whileStmt hkeyword hopening hcond hclosing ih
  | block hleft _ hright ih => exact .block hleft ih hright

/-- **Absorption.** The induction follows the last part of the statement, which is the one that is
open. -/
theorem Statement.absorb {other : Token} (hother : other.kind = .keyword .elseWord)
    (h : Statement nearestIf (.statement true) inside words tree)
    (hno : Statement nearestIf (.statement isOpen) inside words' tree') :
    ∃ isOpen tree,
      Statement nearestIf (.statement isOpen) inside (words ++ other :: words') tree := by
  generalize hsymbol : StmtSymbol.statement true = symbol at h
  induction h with
  | forStmt hkeyword hopening hinit hcond hsemicolon hstep hclosing _ ih =>
    obtain ⟨isOpen, body, hbody⟩ := ih hno hsymbol
    have h := Statement.forStmt hkeyword hopening hinit hcond hsemicolon hstep hclosing hbody
    simp only [List.append_assoc, List.cons_append] at h ⊢
    exact ⟨_, _, h⟩
  | @ifThen _ isOpen _ _ _ _ _ _ _ hkeyword hopening hcond hclosing hyes ih =>
    cases isOpen with
    | false =>
      exact ⟨_, _, .ifElse hkeyword hopening hcond hclosing hyes rfl hother hno⟩
    | true =>
      obtain ⟨isOpen, yes, hyes⟩ := ih hno rfl
      have h := Statement.ifThen hkeyword hopening hcond hclosing hyes
      simp only [List.append_assoc, List.cons_append] at h ⊢
      exact ⟨_, _, h⟩
  | ifElse hkeyword hopening hcond hclosing hyes hopen hother' _ _ ih =>
    obtain ⟨isOpen, no, hno⟩ := ih hno hsymbol
    have h := Statement.ifElse hkeyword hopening hcond hclosing hyes hopen hother' hno
    simp only [List.append_assoc, List.cons_append] at h ⊢
    exact ⟨_, _, h⟩
  | whileStmt hkeyword hopening hcond hclosing _ ih =>
    obtain ⟨isOpen, body, hbody⟩ := ih hno hsymbol
    have h := Statement.whileStmt hkeyword hopening hcond hclosing hbody
    simp only [List.append_assoc, List.cons_append] at h ⊢
    exact ⟨_, _, h⟩
  | funcDecl | varDecl | statement | exprStmt | printStmt | returnStmt | block =>
    exact nomatch hsymbol

/-- The words are a statement or a declaration in which each `else` belongs to the nearest `if`. -/
def HasNearest (inside : Bool) (words : List Token) : StmtSymbol → Prop
  | .declaration => ∃ tree, Statement nearestIf .declaration inside words tree
  | .statement _ => ∃ isOpen tree, Statement nearestIf (.statement isOpen) inside words tree

/-- New trees for the members of a sequence. -/
theorem exists_parts {parts : List (List Token × Stmt)}
    (h : ∀ d ∈ parts, HasNearest inside d.1 .declaration) :
    ∃ parts' : List (List Token × Stmt),
      (∀ d ∈ parts', Statement nearestIf .declaration inside d.1 d.2) ∧
        parts'.flatMap Prod.fst = parts.flatMap Prod.fst := by
  induction parts with
  | nil => exact ⟨[], fun _ h => absurd h List.not_mem_nil, rfl⟩
  | cons part parts ih =>
    obtain ⟨⟨tree, htree⟩, hparts⟩ := List.forall_mem_cons.mp h
    obtain ⟨parts', hparts', hwords⟩ := ih hparts
    refine ⟨(part.1, tree) :: parts', List.forall_mem_cons.mpr ⟨htree, hparts'⟩, ?_⟩
    rw [List.flatMap_cons, List.flatMap_cons, hwords]

/-- **Every derivation can be rearranged** so that each `else` belongs to the nearest `if`. -/
theorem Statement.exists_nearest (h : Statement attaches symbol inside words tree) :
    HasNearest inside words symbol := by
  induction h with
  | funcDecl hkeyword hname hopening hparams hwords hcount hclosing hleft _ hright ih =>
    obtain ⟨body, hbody, hsame⟩ := exists_parts ih
    rw [← hsame]
    exact ⟨_, .funcDecl hkeyword hname hopening hparams hwords hcount hclosing hleft hbody hright⟩
  | varDecl h => exact ⟨_, .varDecl h⟩
  | statement _ ih =>
    obtain ⟨isOpen, tree, htree⟩ := ih
    exact ⟨tree, .statement htree⟩
  | exprStmt h => exact ⟨false, _, .exprStmt h⟩
  | forStmt hkeyword hopening hinit hcond hsemicolon hstep hclosing _ ih =>
    obtain ⟨isOpen, body, hbody⟩ := ih
    exact ⟨isOpen, _, .forStmt hkeyword hopening hinit hcond hsemicolon hstep hclosing hbody⟩
  | ifThen hkeyword hopening hcond hclosing _ ih =>
    obtain ⟨isOpen, yes, hyes⟩ := ih
    exact ⟨true, _, .ifThen hkeyword hopening hcond hclosing hyes⟩
  | ifElse hkeyword hopening hcond hclosing _ _ hother _ ih ih' =>
    obtain ⟨isOpen, yes, hyes⟩ := ih
    obtain ⟨isOpen', no, hno⟩ := ih'
    exact (Statement.ifThen hkeyword hopening hcond hclosing hyes).absorb hother hno
  | printStmt hkeyword hvalue hsemicolon =>
    exact ⟨false, _, .printStmt hkeyword hvalue hsemicolon⟩
  | returnStmt hkeyword hvalue hsemicolon =>
    exact ⟨false, _, .returnStmt hkeyword hvalue hsemicolon⟩
  | whileStmt hkeyword hopening hcond hclosing _ ih =>
    obtain ⟨isOpen, body, hbody⟩ := ih
    exact ⟨isOpen, _, .whileStmt hkeyword hopening hcond hclosing hbody⟩
  | block hleft _ hright ih =>
    obtain ⟨body, hbody, hsame⟩ := exists_parts ih
    rw [← hsame]
    exact ⟨false, _, .block hleft hbody hright⟩

theorem Program.mono {program : BlockScript.Program} (h : Program attaches words program)
    (himp : ∀ isOpen, attaches isOpen → attaches' isOpen) : Program attaches' words program := by
  obtain ⟨parts, hparts, hwords, hprogram⟩ := h
  exact ⟨parts, fun d hd => (hparts d hd).mono himp, hwords, hprogram⟩

theorem Program.exists_nearest {program : BlockScript.Program}
    (h : Program attaches words program) : ∃ program, Program nearestIf words program := by
  obtain ⟨parts, hparts, rfl, -⟩ := h
  obtain ⟨parts', hparts', hwords⟩ := exists_parts fun d hd => (hparts d hd).exists_nearest
  exact ⟨_, parts', hparts', hwords.symm, rfl⟩

end Grammar

end BlockScript
