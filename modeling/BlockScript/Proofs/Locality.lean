import BlockScript.Proofs.NextToken
import BlockScript.Proofs.Soundness

/-!
# What a parser looks at

A parser goes forward in its input and decides by the next token alone. So what it does with some
tokens does not depend on what comes later, as long as it stops before the last of them, nor on the
faults that were found earlier, nor on the bound on its depth, if that is large enough. All of this
is one statement, `Coherent`: the parser, put into a wider setting and given a larger bound, does
the same.

Unlike `Reads`, which is about words of the grammar, this holds of every input. It is what lets the
parts of an input that is full of faults be looked at one by one.

## The end of the input

The one thing that a parser sees beyond its tokens is that there are none left. So the two runs
agree only if the setting leaves the end of the input alone, or if there still are tokens in the
end. `Setting.Suits` says this of the state that the parser leaves, and then it holds of all the
states on the way.

## Main definitions

* `Fault.breaksOff` — the faults that a declaration is given up over
* `Parser.Forward` — what holds of every parser
* `Parser.Setting`, `Parser.State.widen` — a state in a wider setting
* `Parser.Coherent` — a parser does the same in every setting that suits it
* `Parser.Progresses` — a declaration takes at least one token

## Main results

* `Parser.Coherent.bind` — sequencing
* `Parser.coherent_expression`, `Parser.coherent_statement_declaration` — the parser is coherent
* `Parser.declaration_stopped` — it does not matter where the token before a declaration stopped
-/

namespace BlockScript

/-- Whether the parser gives up a declaration over such a fault, instead of recording it and going
on. -/
def Fault.breaksOff : Fault → Bool
  | .expected _ | .expectedExpression => true
  | _ => false

namespace Parser

variable {α β : Type}

/-! ## Going forward -/

/-- What holds of every parser: it leaves tokens from the end of its input, it only adds faults, and
if it breaks off, then with a fault at the next token. -/
structure Forward (s : State) (r : EStateM.Result Located State α) : Prop where
  suffix : (stateAfter r).rest <:+ s.rest
  finish : (stateAfter r).finish = s.finish
  follows : Follows s (stateAfter r)
  place : ∀ fault s', r = .error fault s' → fault.span = s'.here ∧ fault.fault.breaksOff = true

namespace Forward

variable {s s' : State} {r : EStateM.Result Located State β}

theorem ok {a : α} (hrest : s'.rest <:+ s.rest) (hfinish : s'.finish = s.finish)
    (hfollows : Follows s s') : Forward s (.ok a s') :=
  ⟨hrest, hfinish, hfollows, fun _ _ h => nomatch h⟩

theorem same (a : α) (s : State) : Forward s (.ok a s) :=
  ok List.suffix_rfl rfl (.refl s)

theorem after {token : Token} {rest : List Token} (a : α) (hs : s.rest = token :: rest) :
    Forward s (.ok a (s.after [token] rest)) :=
  ok (hs ▸ List.suffix_cons token rest) rfl ⟨List.prefix_rfl, rfl⟩

theorem trans {a : α} (h : Forward s (.ok a s')) (h' : Forward s' r) : Forward s r :=
  ⟨h'.suffix.trans h.suffix, h'.finish.trans h.finish, h.follows.trans h'.follows, h'.place⟩

/-- How far a parser goes is a matter of the state alone. -/
theorem of_error {fault : Located} (h : Forward s (.error fault s' : EStateM.Result _ _ α)) :
    Forward s (.error fault s' : EStateM.Result _ _ β) :=
  ⟨h.suffix, h.finish, h.follows, fun f t heq => h.place f t <| by
    injection heq with hf ht
    rw [hf, ht]⟩

end Forward

/-! ## Settings -/

/-- What an input can be put into: the tokens after it, the faults that were found before it, and
where the end of the input is then. -/
structure Setting where
  more : List Token
  earlier : List Located
  finish : Span

/-- The state in a wider setting. -/
def State.widen (c : Setting) (s : State) : State :=
  { s with rest := s.rest ++ c.more, finish := c.finish, faults := c.earlier ++ s.faults }

/-- The result in a wider setting. -/
def widen (c : Setting) : EStateM.Result Located State α → EStateM.Result Located State α
  | .ok a s => .ok a (s.widen c)
  | .error fault s => .error fault (s.widen c)

/-- What the parser sees of its input is the same in the setting: a token, or the same end. -/
def Setting.Suits (c : Setting) (s : State) : Prop :=
  s.rest = [] → c.more = [] ∧ c.finish = s.finish

namespace Setting.Suits

variable {c : Setting} {s : State}

/-- A setting that suits the state that a parser leaves suits the state that it starts from. -/
theorem before {r : EStateM.Result Located State α} (h : c.Suits (stateAfter r))
    (hr : Forward s r) : c.Suits s := by
  intro hs
  have hend : (stateAfter r).rest = [] := by
    have := hr.suffix
    rwa [hs, List.suffix_nil] at this
  rw [← hr.finish]
  exact h hend

theorem widen_of_end (h : c.Suits s) (hs : s.rest = []) :
    (s.widen c).rest = [] ∧ (s.widen c).finish = s.finish := by
  obtain ⟨hmore, hfinish⟩ := h hs
  exact ⟨by simp [State.widen, hs, hmore], hfinish⟩

theorem here_widen (h : c.Suits s) : (s.widen c).here = s.here := by
  cases hs : s.rest with
  | nil =>
    obtain ⟨hrest, hfinish⟩ := h.widen_of_end hs
    rw [State.here_of_end hrest, State.here_of_end hs, hfinish]
  | cons token rest => simp [State.here, State.widen, hs]

theorem nextIs_widen (h : c.Suits s) (kind : Token.Kind) :
    (s.widen c).nextIs kind = s.nextIs kind := by
  cases hs : s.rest with
  | nil => rw [State.nextIs_of_end (h.widen_of_end hs).1, State.nextIs_of_end hs]
  | cons token rest => simp [State.nextIs, State.widen, hs]

theorem isEmpty_widen (h : c.Suits s) : (s.widen c).rest.isEmpty = s.rest.isEmpty := by
  cases hs : s.rest with
  | nil => rw [(h.widen_of_end hs).1]
  | cons token rest => simp [State.widen, hs]

end Setting.Suits

theorem widen_rest_cons {c : Setting} {s : State} {token : Token} {rest : List Token}
    (hs : s.rest = token :: rest) : (s.widen c).rest = token :: (rest ++ c.more) := by
  simp [State.widen, hs]

theorem after_widen (c : Setting) (s : State) (words rest : List Token) :
    (s.widen c).after words (rest ++ c.more) = (s.after words rest).widen c := rfl

theorem record_widen (c : Setting) (s : State) (fault : Located) :
    (s.widen c).record fault = (s.record fault).widen c := by
  simp [State.record, State.widen]

/-! ## Coherence -/

/-- `p'` is the parser `p`, perhaps with a larger bound. In every setting that suits it, it does
what `p` does without, if there are fewer than `n` tokens. -/
structure Coherent (n : Nat) (p p' : Parser α) : Prop where
  forward : ∀ s, Forward s (p s)
  same : ∀ (c : Setting) (s : State), s.rest.length + c.more.length < n →
    c.Suits (stateAfter (p s)) → p' (s.widen c) = widen c (p s)

namespace Coherent

variable {n m : Nat} {p p' : Parser α} {f f' : α → Parser β}

theorem mono (h : Coherent n p p') (hm : m ≤ n) : Coherent m p p' :=
  ⟨h.forward, fun c s hs => h.same c s (Nat.lt_of_lt_of_le hs hm)⟩

/-- Nothing is asked of the second parser if there cannot be any tokens. -/
theorem zero (h : ∀ s, Forward s (p s)) : Coherent 0 p p' :=
  ⟨h, fun _ _ hs => absurd hs (Nat.not_lt_zero _)⟩

protected theorem pure (a : α) : Coherent n (pure a : Parser α) (pure a) :=
  ⟨fun s => .same a s, fun _ _ _ _ => rfl⟩

/-- Two parsers one after the other do the same in a setting, if each of them does. -/
theorem widen_bind {c : Setting} {s : State}
    (hp : c.Suits (stateAfter (p s)) → p' (s.widen c) = widen c (p s))
    (hforward : ∀ a s', Forward s' (f a s'))
    (hf : ∀ a s', p s = .ok a s' → c.Suits (stateAfter (f a s')) →
      f' a (s'.widen c) = widen c (f a s'))
    (hsuits : c.Suits (stateAfter ((p >>= f) s))) :
    (p' >>= f') (s.widen c) = widen c ((p >>= f) s) := by
  rw [bind_apply] at hsuits ⊢
  rw [bind_apply]
  cases hr : p s with
  | error fault s' =>
    rw [hr] at hsuits hp
    rw [hp hsuits]
    rfl
  | ok a s' =>
    rw [hr] at hsuits hp
    have hsuits' : c.Suits s' := hsuits.before (hforward a s')
    rw [hp hsuits']
    exact hf a s' hr hsuits

/-- **Sequencing.** The second parser has fewer tokens left by those that the first one took, so it
needs a smaller bound, which may depend on the value. -/
theorem bind_of_le {m : α → Nat} (hp : Coherent n p p') (hf : ∀ a, Coherent (m a) (f a) (f' a))
    (hm : ∀ s a s', p s = .ok a s' → s'.rest.length + n ≤ s.rest.length + m a) :
    Coherent n (p >>= f) (p' >>= f') where
  forward s := by
    rw [bind_apply]
    have hs := hp.forward s
    cases hr : p s with
    | error fault s' => rw [hr] at hs; exact hs.of_error
    | ok a s' => rw [hr] at hs; exact hs.trans ((hf a).forward s')
  same c s hn := by
    refine widen_bind (hp.same c s hn) (fun a s' => (hf a).forward s') fun a s' hr => ?_
    have hle := hm s a s' hr
    exact (hf a).same c s' (by omega)

theorem bind (hp : Coherent n p p') (hf : ∀ a, Coherent n (f a) (f' a)) :
    Coherent n (p >>= f) (p' >>= f') := by
  refine hp.bind_of_le hf fun s a s' hr => ?_
  have hs := (hp.forward s).suffix.length_le
  rw [hr] at hs
  exact Nat.add_le_add_right hs n

theorem map (hp : Coherent n p p') (g : α → β) : Coherent n (g <$> p) (g <$> p') := by
  rw [map_eq_bind, map_eq_bind]
  exact hp.bind fun a => .pure (g a)

/-! ### Single tokens -/

theorem failHere (fault : Fault) (h : fault.breaksOff = true) :
    Coherent n (failHere fault : Parser α) (failHere fault) where
  forward s := by
    refine ⟨List.suffix_rfl, rfl, .refl s, fun f s' heq => ?_⟩
    injection heq with hf hs
    subst hf hs
    exact ⟨rfl, h⟩
  same c s _ hsuits := by
    have hsuits : c.Suits s := hsuits
    rw [Parser.failHere, Parser.failHere, hsuits.here_widen]
    rfl

theorem report (fault : Fault) (span : Span) :
    Coherent n (report fault span) (report fault span) where
  forward s := .ok List.suffix_rfl rfl (.record s _)
  same c s _ _ := by
    rw [Parser.report, Parser.report, record_widen]
    rfl

theorem here : Coherent n here here where
  forward s := .same _ s
  same c s _ hsuits := by
    have hsuits : c.Suits s := hsuits
    rw [Parser.here, hsuits.here_widen]
    rfl

theorem nextIs (kind : Token.Kind) : Coherent n (nextIs kind) (nextIs kind) where
  forward s := .same _ s
  same c s _ hsuits := by
    have hsuits : c.Suits s := hsuits
    rw [Parser.nextIs, hsuits.nextIs_widen]
    rfl

theorem spanFrom (start : Nat) : Coherent n (spanFrom start) (spanFrom start) :=
  ⟨fun s => .same _ s, fun _ _ _ _ => rfl⟩

theorem accept? (select : Token.Kind → Option α) :
    Coherent n (accept? select) (accept? select) where
  forward s := by
    cases hs : s.rest with
    | nil => rw [accept?_of_end hs]; exact .same _ s
    | cons token rest =>
      rw [accept?_of_rest hs]
      split
      · exact .after _ hs
      · exact .same _ s
  same c s _ hsuits := by
    cases hs : s.rest with
    | nil =>
      rw [accept?_of_end hs] at hsuits ⊢
      have hsuits : c.Suits s := hsuits
      rw [accept?_of_end (hsuits.widen_of_end hs).1]
      rfl
    | cons token rest =>
      rw [accept?_of_rest hs, accept?_of_rest (widen_rest_cons hs)]
      cases select token.kind <;> rfl

theorem accept?_bind {γ : Type} {select : Token.Kind → Option γ}
    {f f' : Option (γ × Token) → Parser β} (hnone : Coherent n (f none) (f' none))
    (hsome : ∀ found, Coherent m (f (some found)) (f' (some found))) (hm : n ≤ m + 1) :
    Coherent n (Parser.accept? select >>= f) (Parser.accept? select >>= f') := by
  refine (accept? select).bind_of_le (m := fun found => if found.isSome then m else n)
    (fun found => ?_) fun s found s' hr => ?_
  · cases found with
    | none => exact hnone
    | some found => exact hsome found
  · cases hs : s.rest with
    | nil =>
      rw [accept?_of_end hs] at hr
      injection hr with hfound hs'
      subst hfound hs'
      rw [hs]
      exact Nat.le_refl _
    | cons token rest =>
      rw [accept?_of_rest hs] at hr
      split at hr
      · injection hr with hfound hs'
        subst hfound hs'
        simp only [State.after_rest, List.length_cons, Option.isSome_some, if_true]
        omega
      · injection hr with hfound hs'
        subst hfound hs'
        rw [hs]
        exact Nat.le_refl _

theorem acceptKind?_bind {kind : Token.Kind} {f f' : Option Token → Parser β}
    (hnone : Coherent n (f none) (f' none))
    (hsome : ∀ token, Coherent m (f (some token)) (f' (some token))) (hm : n ≤ m + 1) :
    Coherent n (acceptKind? kind >>= f) (acceptKind? kind >>= f') := by
  rw [acceptKind?_eq, map_eq_bind, bind_assoc, bind_assoc]
  refine accept?_bind ?_ (fun found => ?_) hm
  · rw [pure_bind, pure_bind]
    exact hnone
  · rw [pure_bind, pure_bind]
    exact hsome found.2

theorem expect_bind {kind : Token.Kind} {what : String} {f f' : Token → Parser β}
    (hf : ∀ token, Coherent m (f token) (f' token)) (hm : n ≤ m + 1) :
    Coherent n (expect kind what >>= f) (expect kind what >>= f') := by
  rw [expect_eq, bind_assoc, bind_assoc]
  refine acceptKind?_bind ?_ (fun token => ?_) hm
  · rw [failHere_bind, failHere_bind]
    exact failHere _ rfl
  · rw [pure_bind, pure_bind]
    exact hf token

theorem expect (kind : Token.Kind) (what : String) :
    Coherent n (Parser.expect kind what) (Parser.expect kind what) := by
  have h : Coherent n (Parser.expect kind what >>= pure) (Parser.expect kind what >>= pure) :=
    expect_bind (fun token => .pure token) (Nat.le_succ n)
  rwa [bind_pure] at h

theorem byHead {branch branch' : Token → Option (Parser α)} {otherwise otherwise' : Parser α}
    (h : Coherent n otherwise otherwise')
    (hbranch : ∀ token, Option.Rel (Coherent m) (branch token) (branch' token)) (hm : n ≤ m + 1) :
    Coherent n (byHead branch otherwise) (byHead branch' otherwise') where
  forward s := by
    cases hs : s.rest with
    | nil => rw [byHead_of_end hs]; exact h.forward s
    | cons token rest =>
      have htoken := hbranch token
      generalize hb : branch token = found, hb' : branch' token = found' at htoken
      cases htoken with
      | none => rw [byHead_of_none hs hb]; exact h.forward s
      | some hq =>
        rw [byHead_of_some hs hb]
        exact (Forward.after () hs).trans (hq.forward _)
  same c s hn hsuits := by
    cases hs : s.rest with
    | nil =>
      rw [byHead_of_end hs] at hsuits ⊢
      have hend := (hsuits.before (h.forward s)).widen_of_end hs
      rw [byHead_of_end hend.1]
      exact h.same c s hn hsuits
    | cons token rest =>
      have htoken := hbranch token
      generalize hb : branch token = found, hb' : branch' token = found' at htoken
      cases htoken with
      | none =>
        rw [byHead_of_none hs hb] at hsuits ⊢
        rw [byHead_of_none (widen_rest_cons hs) hb']
        exact h.same c s hn hsuits
      | some hq =>
        rw [byHead_of_some hs hb] at hsuits ⊢
        rw [byHead_of_some (widen_rest_cons hs) hb', after_widen]
        rw [hs, List.length_cons] at hn
        exact hq.same c _ (by rw [State.after_rest]; omega) hsuits

/-! ### Parts that may be missing, functions and recovery -/

theorem unlessNext (hp : Coherent n p p') (kind : Token.Kind) :
    Coherent n (unlessNext kind p) (unlessNext kind p') := by
  refine (nextIs kind).bind fun b => ?_
  split
  · exact .pure none
  · exact hp.map some

theorem insideFunction (hp : Coherent n p p') :
    Coherent n (insideFunction p) (insideFunction p') where
  forward s := by
    have hs := hp.forward { s with depth := s.depth + 1 }
    rw [Parser.insideFunction]
    cases hr : p { s with depth := s.depth + 1 } with
    | ok a s' =>
      rw [hr] at hs
      exact .ok hs.suffix hs.finish ⟨hs.follows.faults, rfl⟩
    | error fault s' =>
      rw [hr] at hs
      refine ⟨hs.suffix, hs.finish, ⟨hs.follows.faults, rfl⟩, fun f t heq => ?_⟩
      injection heq with hf ht
      subst hf ht
      exact hs.place fault s' rfl
  same c s hn hsuits := by
    have hsame := hp.same c { s with depth := s.depth + 1 } hn
    rw [Parser.insideFunction] at hsuits ⊢
    rw [Parser.insideFunction]
    change (match p' (State.widen c { s with depth := s.depth + 1 }) with
      | .ok a s' => EStateM.Result.ok a { s' with depth := s.depth }
      | .error e s' => .error e { s' with depth := s.depth }) = _
    cases hr : p { s with depth := s.depth + 1 } with
    | ok a s' =>
      rw [hr] at hsuits hsame
      rw [hsame hsuits]
      rfl
    | error fault s' =>
      rw [hr] at hsuits hsame
      rw [hsame hsuits]
      rfl

end Coherent

/-! ## Resuming -/

theorem skipFrom_suffix (skipped : Token) (tokens : List Token) :
    (skipFrom skipped tokens).2 <:+ tokens := by
  induction tokens generalizing skipped with
  | nil => exact List.suffix_rfl
  | cons token rest ih =>
    rw [skipFrom]
    split
    · exact List.suffix_rfl
    · exact (ih token).trans (List.suffix_cons token rest)

/-- Where skipping stops does not depend on what comes later, if there are tokens left. -/
theorem skipFrom_append {skipped : Token} {tokens more : List Token}
    (h : (skipFrom skipped tokens).2 = [] → more = []) :
    skipFrom skipped (tokens ++ more) =
      ((skipFrom skipped tokens).1, (skipFrom skipped tokens).2 ++ more) := by
  induction tokens generalizing skipped with
  | nil =>
    rw [h rfl]
    rfl
  | cons token rest ih =>
    rw [List.cons_append]
    unfold skipFrom at h ⊢
    split
    · rfl
    · rename_i hstop
      rw [if_neg hstop] at h
      exact ih h

theorem Forward.synchronize (a : α) (s : State) : Forward s (.ok a s.synchronize) := by
  refine ok ?_ ?_ (.synchronize s)
  · unfold State.synchronize
    split
    · rename_i token rest hs
      rw [hs]
      exact (skipFrom_suffix token rest).trans (List.suffix_cons token rest)
    · exact List.suffix_rfl
  · unfold State.synchronize
    split <;> rfl

theorem synchronize_widen {c : Setting} {s : State} (h : c.Suits s.synchronize) :
    (s.widen c).synchronize = s.synchronize.widen c := by
  cases hs : s.rest with
  | nil =>
    rw [State.synchronize_of_end hs] at h ⊢
    rw [State.synchronize_of_end (h.widen_of_end hs).1]
  | cons token rest =>
    unfold State.synchronize at h ⊢
    rw [hs] at h ⊢
    rw [widen_rest_cons hs]
    dsimp only at h ⊢
    rw [skipFrom_append fun hend => (h hend).1]
    rfl

theorem Coherent.recover {n : Nat} {p p' : Parser α} (hp : Coherent n p p') :
    Coherent n (recover p) (recover p') where
  forward s := by
    have hs := hp.forward s
    rw [Parser.recover]
    cases hr : p s with
    | ok a s' =>
      rw [hr] at hs
      exact .ok hs.suffix hs.finish hs.follows
    | error fault s' =>
      rw [hr] at hs
      have hrecord : Forward s (.ok none (s'.record fault) : EStateM.Result _ _ (Option α)) :=
        .ok hs.suffix hs.finish (hs.follows.trans (.record s' fault))
      exact hrecord.trans (.synchronize none _)
  same c s hn hsuits := by
    have hsame := hp.same c s hn
    rw [Parser.recover] at hsuits ⊢
    rw [Parser.recover]
    cases hr : p s with
    | ok a s' =>
      rw [hr] at hsuits hsame
      rw [hsame hsuits]
      rfl
    | error fault s' =>
      rw [hr] at hsuits hsame
      have hsuits : c.Suits (s'.record fault).synchronize := hsuits
      have hrecord : c.Suits (s'.record fault) := hsuits.before (.synchronize () _)
      rw [hsame hrecord]
      change EStateM.Result.ok none ((s'.widen c).record fault).synchronize = _
      rw [record_widen, synchronize_widen hsuits]
      rfl

/-! ## Expressions -/

namespace Coherent

variable {n m : Nat} {p p' : Parser α}

theorem checkCount (tooMany : Nat → Fault) (count : Nat) :
    Coherent n (checkCount tooMany count) (checkCount tooMany count) := by
  unfold Parser.checkCount
  split
  · exact here.bind fun span => .report _ span
  · exact .pure ()

theorem commaSeparated (tooMany : Nat → Fault) {steps : Nat} :
    ∀ {n steps' : Nat} (count : Nat), Coherent n p p' → n ≤ steps → steps ≤ steps' →
      Coherent n (commaSeparated tooMany p steps count)
        (commaSeparated tooMany p' steps' count) := by
  induction steps with
  | zero =>
    intro n steps' count _ hn _
    obtain rfl := Nat.le_zero.mp hn
    exact .zero fun s => .same [] s
  | succ steps ih =>
    intro n steps' count hp hn hle
    obtain ⟨steps', rfl⟩ := Nat.exists_eq_add_of_le' (Nat.lt_of_lt_of_le (Nat.succ_pos _) hle)
    refine (checkCount tooMany count).bind fun _ => hp.bind fun first => ?_
    refine .acceptKind?_bind (m := n - 1) (.pure [first]) (fun comma => ?_) (by omega)
    exact (ih (count + 1) (hp.mono (by omega)) (by omega) (by omega)).bind fun others => .pure _

theorem itemList (tooMany : Nat → Fault) {steps steps' : Nat} (hp : Coherent n p p')
    (hn : n ≤ steps) (hle : steps ≤ steps') :
    Coherent n (itemList steps tooMany p) (itemList steps' tooMany p') := by
  refine (nextIs _).bind fun b => ?_
  split
  · exact .pure []
  · exact commaSeparated tooMany 0 hp hn hle

variable {nested nested' operand operand' : Parser Expr}

theorem grouping (h : Coherent n nested nested') (opening : Token) :
    Coherent n (grouping nested opening) (grouping nested' opening) :=
  h.bind fun _ => .expect_bind (fun _ => .pure _) (Nat.le_succ n)

theorem primary (h : Coherent m nested nested') (hn : n ≤ m + 1) :
    Coherent n (primary nested) (primary nested') := by
  rw [primary_eq, primary_eq]
  refine (failHere _ rfl).byHead (fun token => ?_) hn
  unfold unitBranch
  split
  · exact .some (.pure _)
  · split
    · exact .some (h.grouping token)
    · exact .none

theorem finishCall (h : Coherent n nested nested') {steps steps' : Nat} (hn : n ≤ steps)
    (hle : steps ≤ steps') (callee : Expr) :
    Coherent n (finishCall steps nested callee) (finishCall steps' nested' callee) :=
  (itemList _ h hn hle).bind fun _ => .expect_bind (fun _ => .pure _) (Nat.le_succ n)

theorem callsOf (h : Coherent m nested nested') {width width' : Nat} (hm : m ≤ width)
    (hwidth : width ≤ width') {steps : Nat} :
    ∀ {n steps' : Nat} (callee : Expr), n ≤ m + 1 → n ≤ steps → steps ≤ steps' →
      Coherent n (callsOf width nested steps callee) (callsOf width' nested' steps' callee) := by
  induction steps with
  | zero =>
    intro n steps' callee _ hn _
    obtain rfl := Nat.le_zero.mp hn
    exact .zero fun s => .same callee s
  | succ steps ih =>
    intro n steps' callee hnm hn hle
    obtain ⟨steps', rfl⟩ := Nat.exists_eq_add_of_le' (Nat.lt_of_lt_of_le (Nat.succ_pos _) hle)
    refine .acceptKind?_bind (m := n - 1) (.pure callee) (fun opening => ?_) (by omega)
    exact ((h.finishCall hm hwidth callee).mono (by omega)).bind fun next =>
      ih next (by omega) (by omega) (by omega)

theorem call (h : Coherent m nested nested') {steps steps' : Nat} (hm : m ≤ steps)
    (hn : n ≤ steps) (hle : steps ≤ steps') (hnm : n ≤ m + 1) :
    Coherent n (call steps nested) (call steps' nested') :=
  (h.primary hnm).bind fun callee => h.callsOf hm hle callee hnm hn hle

theorem unary (h : Coherent n operand operand') {steps : Nat} :
    ∀ {steps' : Nat}, n ≤ steps → steps ≤ steps' →
      Coherent n (unary operand steps) (unary operand' steps') := by
  induction steps generalizing n with
  | zero =>
    intro steps' hn _
    obtain rfl := Nat.le_zero.mp hn
    exact .zero h.forward
  | succ steps ih =>
    intro steps' hn hle
    obtain ⟨steps', rfl⟩ := Nat.exists_eq_add_of_le' (Nat.lt_of_lt_of_le (Nat.succ_pos _) hle)
    refine .accept?_bind (m := n - 1) h (fun found => ?_) (by omega)
    exact (ih (h.mono (by omega)) (by omega) (by omega)).bind fun inner => .pure _

theorem chain (level : Level) {steps : Nat} :
    ∀ {n steps' : Nat} (left : Expr), Coherent n operand operand' → n ≤ steps → steps ≤ steps' →
      Coherent n (chain level operand steps left) (chain level operand' steps' left) := by
  induction steps with
  | zero =>
    intro n steps' left _ hn _
    obtain rfl := Nat.le_zero.mp hn
    exact .zero fun s => .same left s
  | succ steps ih =>
    intro n steps' left h hn hle
    obtain ⟨steps', rfl⟩ := Nat.exists_eq_add_of_le' (Nat.lt_of_lt_of_le (Nat.succ_pos _) hle)
    refine .accept?_bind (m := n - 1) (.pure left) (fun found => ?_) (by omega)
    exact (h.mono (by omega)).bind fun right => ih _ (h.mono (by omega)) (by omega) (by omega)

theorem binary (h : Coherent n operand operand') {steps steps' : Nat} (hn : n ≤ steps)
    (hle : steps ≤ steps') (levels : List Level) :
    Coherent n (binary steps operand levels) (binary steps' operand' levels) := by
  induction levels with
  | nil => exact h
  | cons level tighter ih => exact ih.bind fun left => chain level left ih hn hle

theorem assignment (h : Coherent m nested nested') {steps steps' : Nat} (hm : m ≤ steps)
    (hn : n ≤ steps) (hle : steps ≤ steps') (hnm : n ≤ m + 1) :
    Coherent n (assignment steps nested) (assignment steps' nested') := by
  refine (((h.call hm hn hle hnm).unary hn hle).binary hn hle levels).bind fun target => ?_
  refine .acceptKind?_bind (.pure target) (fun equals => h.bind fun value => ?_) hnm
  split
  · exact .pure _
  · exact (report _ _).bind fun _ => .pure _

end Coherent

/-- **The parser of expressions is coherent.** -/
theorem coherent_expression {k : Nat} :
    ∀ {n k' : Nat}, n ≤ k → k ≤ k' → Coherent n (expression k) (expression k') := by
  induction k with
  | zero =>
    intro n k' hn _
    obtain rfl := Nat.le_zero.mp hn
    exact .zero (Coherent.failHere (n := 0) _ rfl).forward
  | succ k ih =>
    intro n k' hn hle
    obtain ⟨k', rfl⟩ := Nat.exists_eq_add_of_le' (Nat.lt_of_lt_of_le (Nat.succ_pos _) hle)
    exact (ih (Nat.le_refl k) (Nat.le_of_succ_le_succ hle)).assignment (Nat.le_succ k) hn hle hn

/-! ## Progress -/

/-- A parser that expects a token and gives a value has taken the token. -/
theorem length_lt_of_expect {kind : Token.Kind} {what : String} {f : Token → Parser β}
    (hf : ∀ token s, Forward s (f token s)) {s s' : State} {b : β}
    (h : (expect kind what >>= f) s = .ok b s') : s'.rest.length < s.rest.length := by
  rw [bind_apply, expect] at h
  cases hs : s.rest with
  | nil => rw [hs] at h; cases h
  | cons token rest =>
    rw [hs] at h
    dsimp only at h
    split at h
    · rename_i hr
      split at hr
      · injection hr with htoken hs'
        subst htoken hs'
        have hle := (hf token s.advance).suffix.length_le
        rw [h, State.advance_of_rest hs] at hle
        exact Nat.lt_succ_of_le hle
      · cases hr
    · cases h

theorem length_synchronize_lt {s : State} (hs : s.rest ≠ []) :
    s.synchronize.rest.length < s.rest.length := by
  cases hrest : s.rest with
  | nil => exact absurd hrest hs
  | cons token rest =>
    rw [State.synchronize, hrest]
    exact Nat.lt_succ_of_le (skipFrom_suffix token rest).length_le

/-- Whoever breaks off without having taken a token has one skipped. -/
theorem length_recover_lt {p : Parser α} {s : State} (hp : Forward s (p s)) (hs : s.rest ≠ [])
    (hok : ∀ a s', p s = .ok a s' → s'.rest.length < s.rest.length) :
    (stateAfter (recover p s)).rest.length < s.rest.length := by
  rw [recover]
  cases hr : p s with
  | ok a s' => exact hok a s' hr
  | error fault s' =>
    rw [hr] at hp
    have hle : s'.rest.length ≤ s.rest.length := hp.suffix.length_le
    by_cases hend : s'.rest = []
    · change (s'.record fault).synchronize.rest.length < _
      rw [State.synchronize_of_end (s := s'.record fault) hend]
      change s'.rest.length < _
      rw [hend]
      exact List.length_pos_iff.mpr hs
    · exact Nat.lt_of_lt_of_le (length_synchronize_lt (s := s'.record fault) hend) hle

/-! ## Statements -/

/-- Whether a sequence of declarations is closed shows in the next token, and the end of the input
closes it. -/
structure ClosedByHead (closed : State → Bool) : Prop where
  widen : ∀ (c : Setting) (s : State), c.Suits s → closed (s.widen c) = closed s
  atEnd : ∀ s : State, s.rest = [] → closed s = true

/-- A declaration takes at least one of fewer than `n` tokens. -/
def Progresses (n : Nat) (declaration : Parser (Option Stmt)) : Prop :=
  ∀ s : State, s.rest ≠ [] → s.rest.length < n →
    (stateAfter (declaration s)).rest.length < s.rest.length

namespace Coherent

variable {n m : Nat} {expr expr' : Parser Expr} {statement statement' : Parser Stmt}
  {declaration declaration' : Parser (Option Stmt)} {steps steps' : Nat}

theorem declarations {closed : State → Bool} (hclosed : ClosedByHead closed) {steps : Nat} :
    ∀ {n steps' : Nat}, Coherent n declaration declaration' → Progresses n declaration →
      n ≤ steps → steps ≤ steps' →
      Coherent n (declarations declaration closed steps)
        (declarations declaration' closed steps') := by
  induction steps with
  | zero =>
    intro n steps' _ _ hn _
    obtain rfl := Nat.le_zero.mp hn
    exact .zero fun s => .same [] s
  | succ steps ih =>
    intro n steps' h hless hn hle
    obtain ⟨steps', rfl⟩ := Nat.exists_eq_add_of_le' (Nat.lt_of_lt_of_le (Nat.succ_pos _) hle)
    have hrest : Coherent (n - 1) (Parser.declarations declaration closed steps)
        (Parser.declarations declaration' closed steps') :=
      ih (h.mono (Nat.sub_le n 1)) (fun s hs hlt => hless s hs (by omega)) (by omega) (by omega)
    have hforward : ∀ s, Forward s (Parser.declarations declaration closed (steps + 1) s) := by
      intro s
      rw [Parser.declarations]
      split
      · exact .same [] s
      · exact ((h.mono (Nat.zero_le n)).bind fun kept =>
          (hrest.mono (Nat.zero_le _)).bind fun others => .pure _).forward s
    refine ⟨hforward, fun c s hlen hsuits => ?_⟩
    have hs : c.Suits s := hsuits.before (hforward s)
    rw [Parser.declarations] at hsuits ⊢
    rw [Parser.declarations, hclosed.widen c s hs]
    split
    · rfl
    · rename_i hopen
      rw [if_neg hopen] at hsuits
      have hne : s.rest ≠ [] := fun hend => hopen (hclosed.atEnd s hend)
      have hothers (kept : Option Stmt) := hrest.bind fun others =>
        Coherent.pure (n := n - 1) (kept.toList ++ others)
      refine widen_bind (h.same c s hlen) (fun kept s' => (hothers kept).forward s')
        (fun kept s' hr => ?_) hsuits
      have hlt := hless s hne (by omega)
      rw [hr] at hlt
      have hlt : s'.rest.length < s.rest.length := hlt
      exact (hothers kept).same c s' (by omega)

theorem block (h : Coherent n declaration declaration') (hless : Progresses n declaration)
    (hn : n ≤ steps) (hle : steps ≤ steps') :
    Coherent n (block steps declaration) (block steps' declaration') := by
  have hclosed : ClosedByHead fun s => s.rest.isEmpty || s.nextIs (.symbol .rightBrace) :=
    ⟨fun c s hs => by rw [hs.isEmpty_widen, hs.nextIs_widen], fun s hs => by rw [hs]; rfl⟩
  exact (declarations hclosed h hless hn hle).bind fun _ =>
    .expect_bind (fun _ => .pure _) (Nat.le_succ n)

theorem funcDeclaration (h : Coherent n declaration declaration') (hless : Progresses n declaration)
    (hn : n ≤ steps) (hle : steps ≤ steps') (start : Nat) :
    Coherent n (funcDeclaration steps declaration start)
      (funcDeclaration steps' declaration' start) := by
  refine .expect_bind (m := n) (fun name => ?_) (Nat.le_succ n)
  refine .expect_bind (m := n) (fun opening => ?_) (Nat.le_succ n)
  refine (itemList _ (expect _ _) hn hle).bind fun params => ?_
  refine .expect_bind (m := n) (fun closing => ?_) (Nat.le_succ n)
  refine .expect_bind (m := n) (fun left => ?_) (Nat.le_succ n)
  exact (h.block hless hn hle).insideFunction.bind fun body => (spanFrom start).bind fun _ =>
    .pure _

theorem initialValue (h : Coherent n expr expr') :
    Coherent n (initialValue expr) (initialValue expr') :=
  .acceptKind?_bind (.pure none) (fun _ => h.map some) (Nat.le_succ n)

theorem varDeclaration (h : Coherent n expr expr') (start : Nat) :
    Coherent n (varDeclaration expr start) (varDeclaration expr' start) := by
  refine .expect_bind (m := n) (fun name => h.initialValue.bind fun value => ?_) (Nat.le_succ n)
  exact .expect_bind (m := n) (fun _ => (spanFrom start).bind fun _ => .pure _) (Nat.le_succ n)

theorem exprStatement (h : Coherent n expr expr') :
    Coherent n (exprStatement expr) (exprStatement expr') :=
  h.bind fun _ => .expect_bind (m := n) (fun _ => (spanFrom _).bind fun _ => .pure _)
    (Nat.le_succ n)

theorem forInitial (h : Coherent n expr expr') :
    Coherent n (forInitial expr) (forInitial expr') := by
  refine .acceptKind?_bind (m := n) ?_ (fun _ => .pure none) (Nat.le_succ n)
  exact .acceptKind?_bind (m := n) (h.exprStatement.map some)
    (fun keyword => (h.varDeclaration keyword.span.start).map some) (Nat.le_succ n)

theorem forCondition (h : Coherent n expr expr') :
    Coherent n (forCondition expr) (forCondition expr') := by
  refine (nextIs _).bind fun b => ?_
  split
  · exact here.bind fun _ => .pure _
  · exact h

theorem forStatement (h : Coherent n expr expr') (hstatement : Coherent n statement statement')
    (start : Nat) :
    Coherent n (forStatement expr statement start) (forStatement expr' statement' start) := by
  refine .expect_bind (m := n) (fun _ => ?_) (Nat.le_succ n)
  refine h.forInitial.bind fun init => h.forCondition.bind fun cond => ?_
  refine .expect_bind (m := n) (fun _ => (h.unlessNext _).bind fun step => ?_) (Nat.le_succ n)
  refine .expect_bind (m := n) (fun _ => hstatement.bind fun body => ?_) (Nat.le_succ n)
  exact (spanFrom start).bind fun _ => .pure _

theorem ifStatement (h : Coherent n expr expr') (hstatement : Coherent n statement statement')
    (start : Nat) :
    Coherent n (ifStatement expr statement start) (ifStatement expr' statement' start) := by
  refine .expect_bind (m := n) (fun _ => h.bind fun cond => ?_) (Nat.le_succ n)
  refine .expect_bind (m := n) (fun _ => hstatement.bind fun yes => ?_) (Nat.le_succ n)
  refine .acceptKind?_bind (m := n) ((spanFrom start).bind fun _ => .pure _) (fun _ => ?_)
    (Nat.le_succ n)
  exact hstatement.bind fun no => (spanFrom start).bind fun _ => .pure _

theorem printStatement (h : Coherent n expr expr') (start : Nat) :
    Coherent n (printStatement expr start) (printStatement expr' start) :=
  h.bind fun _ => .expect_bind (m := n) (fun _ => (spanFrom _).bind fun _ => .pure _)
    (Nat.le_succ n)

theorem checkReturn (keyword : Span) : Coherent n (checkReturn keyword) (checkReturn keyword) where
  forward s := by
    unfold Parser.checkReturn
    split
    · exact (report (n := 0) _ keyword).forward s
    · exact .same () s
  same c s hn hsuits := by
    unfold Parser.checkReturn at hsuits ⊢
    change (if s.depth = 0 then _ else _) = _
    split
    · rw [if_pos ‹_›] at hsuits
      exact (report _ keyword).same c s hn hsuits
    · rfl

theorem returnStatement (h : Coherent n expr expr') (keyword : Span) :
    Coherent n (returnStatement expr keyword) (returnStatement expr' keyword) :=
  (checkReturn keyword).bind fun _ => (h.unlessNext _).bind fun _ =>
    .expect_bind (m := n) (fun _ => (spanFrom _).bind fun _ => .pure _) (Nat.le_succ n)

theorem whileStatement (h : Coherent n expr expr') (hstatement : Coherent n statement statement')
    (start : Nat) :
    Coherent n (whileStatement expr statement start) (whileStatement expr' statement' start) := by
  refine .expect_bind (m := n) (fun _ => h.bind fun cond => ?_) (Nat.le_succ n)
  refine .expect_bind (m := n) (fun _ => hstatement.bind fun body => ?_) (Nat.le_succ n)
  exact (spanFrom start).bind fun _ => .pure _

theorem blockStatement (h : Coherent n declaration declaration') (hless : Progresses n declaration)
    (hn : n ≤ steps) (hle : steps ≤ steps') (start : Nat) :
    Coherent n (blockStatement steps declaration start)
      (blockStatement steps' declaration' start) :=
  (h.block hless hn hle).bind fun _ => (spanFrom start).bind fun _ => .pure _

theorem statementBranch (h : Coherent n expr expr') (hstatement : Coherent n statement statement')
    (hdeclaration : Coherent n declaration declaration') (hless : Progresses n declaration)
    (hn : n ≤ steps) (hle : steps ≤ steps') (token : Token) :
    Option.Rel (Coherent n) (statementBranch steps expr statement declaration token)
      (statementBranch steps' expr' statement' declaration' token) := by
  unfold Parser.statementBranch
  split
  · exact .some (h.forStatement hstatement _)
  · exact .some (h.ifStatement hstatement _)
  · exact .some (h.printStatement _)
  · exact .some (h.returnStatement _)
  · exact .some (h.whileStatement hstatement _)
  · exact .some (hdeclaration.blockStatement hless hn hle _)
  · exact .none

theorem declarationBranch (h : Coherent n expr expr') (hstatement : Coherent n statement statement')
    (hdeclaration : Coherent n declaration declaration') (hless : Progresses n declaration)
    (hn : n ≤ steps) (hle : steps ≤ steps') (token : Token) :
    Option.Rel (Coherent n) (declarationBranch steps expr statement declaration token)
      (declarationBranch steps' expr' statement' declaration' token) := by
  unfold Parser.declarationBranch
  split
  · exact .some (hdeclaration.funcDeclaration hless hn hle _)
  · exact .some (h.varDeclaration _)
  · exact h.statementBranch hstatement hdeclaration hless hn hle token

end Coherent

/-- A declaration that is read has at least one token. -/
theorem length_lt_of_declarationBody {k : Nat} {s s' : State} {tree : Stmt}
    (hbranch : ∀ token p, declarationBranch (k + 1) (expression (k + 1)) (statement k)
      (declaration k) token = some p → ∀ s, Forward s (p s))
    (h : declarationBody k s = .ok tree s') : s'.rest.length < s.rest.length := by
  have hexpr {t t' : State} (h : exprStatement (expression (k + 1)) t = .ok tree t') :
      t'.rest.length < t.rest.length := by
    have hforward := (coherent_expression (Nat.zero_le (k + 1)) (Nat.le_refl _)).forward t
    rw [exprStatement, bind_apply] at h
    cases hr : expression (k + 1) t with
    | error fault t₁ => rw [hr] at h; nomatch h
    | ok value t₁ =>
      rw [hr] at h hforward
      refine Nat.lt_of_lt_of_le (length_lt_of_expect (fun token u => ?_) h)
        hforward.suffix.length_le
      exact ((Coherent.spanFrom (n := 0) _).bind fun span => .pure _).forward u
  rw [declarationBody] at h
  cases hs : s.rest with
  | nil =>
    rw [byHead_of_end hs] at h
    have := hexpr h
    rwa [hs] at this
  | cons token rest =>
    cases hb : declarationBranch (k + 1) (expression (k + 1)) (statement k) (declaration k)
        token with
    | none =>
      rw [byHead_of_none hs hb] at h
      have := hexpr h
      rwa [hs] at this
    | some p =>
      rw [byHead_of_some hs hb] at h
      have hle := (hbranch token p hb (s.after [token] rest)).suffix.length_le
      rw [h] at hle
      exact Nat.lt_succ_of_le hle

/-- A declaration without recovery, from statements and declarations inside of it. -/
theorem Coherent.declarationBody {k k' : Nat} (h : Coherent k (declaration k) (declaration k'))
    (hle : k ≤ k') (hless : Progresses k (declaration k))
    (hstatement : Coherent k (statement k) (statement k')) :
    Coherent (k + 1) (declarationBody k) (declarationBody k') := by
  have hexpr := coherent_expression (Nat.le_refl (k + 1)) (Nat.succ_le_succ hle)
  refine hexpr.exprStatement.byHead (fun token => ?_) (Nat.le_refl (k + 1))
  exact (hexpr.mono (Nat.le_succ k)).declarationBranch hstatement h hless (Nat.le_succ k)
    (Nat.succ_le_succ hle) token

/-- **The parsers of statements and declarations are coherent**, and a declaration takes a token. -/
theorem coherent_statement_declaration (k : Nat) :
    Progresses k (declaration k) ∧ ∀ k', k ≤ k' →
      Coherent k (statement k) (statement k') ∧ Coherent k (declaration k) (declaration k') := by
  induction k with
  | zero =>
    refine ⟨fun s _ hlt => absurd hlt (Nat.not_lt_zero _), fun k' _ => ⟨.zero ?_, .zero ?_⟩⟩
    · exact (Coherent.failHere (n := 0) _ rfl).forward
    · exact fun s => .same none s
  | succ k ih =>
    obtain ⟨hless, ih⟩ := ih
    have hbody (k' : Nat) (hle : k ≤ k') := (ih k' hle).2.declarationBody hle hless (ih k' hle).1
    refine ⟨fun s hs _ => ?_, fun k' hle => ?_⟩
    · rw [declaration_succ]
      refine length_recover_lt ((hbody k (Nat.le_refl k)).forward s) hs fun tree s' hr => ?_
      refine length_lt_of_declarationBody (fun token p hp => ?_) hr
      have hexpr := coherent_expression (Nat.le_succ k) (Nat.le_refl (k + 1))
      have htoken := hexpr.declarationBranch (ih k (Nat.le_refl k)).1 (ih k (Nat.le_refl k)).2 hless
        (Nat.le_succ k) (Nat.le_refl (k + 1)) token
      rw [hp] at htoken
      cases htoken with
      | some h => exact h.forward
    · obtain ⟨k', rfl⟩ := Nat.exists_eq_add_of_le' (Nat.lt_of_lt_of_le (Nat.succ_pos k) hle)
      have hle : k ≤ k' := Nat.le_of_succ_le_succ hle
      rw [statement_succ, statement_succ, declaration_succ, declaration_succ]
      refine ⟨?_, (hbody k' hle).recover⟩
      have hexpr := coherent_expression (Nat.le_refl (k + 1)) (Nat.succ_le_succ hle)
      exact hexpr.exprStatement.byHead (fun token => (hexpr.mono (Nat.le_succ k)).statementBranch
        (ih k' hle).1 (ih k' hle).2 hless (Nat.le_succ k) (Nat.succ_le_succ hle) token)
        (Nat.le_refl _)

theorem coherent_declarationBody {k k' : Nat} (hle : k ≤ k') :
    Coherent (k + 1) (declarationBody k) (declarationBody k') := by
  obtain ⟨hless, h⟩ := coherent_statement_declaration k
  exact (h k' hle).2.declarationBody hle hless (h k' hle).1

/-! ## Where the last token stopped -/

/-- The state after a token that stopped elsewhere. -/
def State.stopped (s : State) (stop : Nat) : State := { s with lastStop := stop }

/-- With a token next, it does not matter to the parser where the one before stopped. If the parser
breaks off at once, it leaves this as it was. -/
def StopBlind (p : Parser α) : Prop :=
  ∀ (s : State) (stop : Nat), s.rest ≠ [] →
    p (s.stopped stop) = p s ∨
      ∃ fault, p s = .error fault s ∧ p (s.stopped stop) = .error fault (s.stopped stop)

namespace StopBlind

variable {p : Parser α}

theorem failHere (fault : Fault) : StopBlind (failHere fault : Parser α) :=
  fun _ _ _ => .inr ⟨_, rfl, rfl⟩

/-- What comes later starts from the same state, or not at all. -/
theorem bind (hp : StopBlind p) (f : α → Parser β) : StopBlind (p >>= f) := by
  intro s stop hs
  rw [bind_apply, bind_apply]
  rcases hp s stop hs with h | ⟨fault, h, h'⟩
  · exact .inl (by rw [h])
  · exact .inr ⟨fault, by rw [h], by rw [h']⟩

theorem byHead (hp : StopBlind p) (branch : Token → Option (Parser α)) :
    StopBlind (byHead branch p) := by
  intro s stop hs
  obtain ⟨token, rest, hrest⟩ := List.exists_cons_of_ne_nil hs
  have hstopped : (s.stopped stop).rest = token :: rest := hrest
  cases hb : branch token with
  | none =>
    rw [byHead_of_none hrest hb, byHead_of_none hstopped hb]
    exact hp s stop hs
  | some q =>
    rw [byHead_of_some hrest hb, byHead_of_some hstopped hb]
    exact .inl rfl

theorem accept?_bind {γ : Type} {select : Token.Kind → Option γ}
    {f : Option (γ × Token) → Parser β} (hf : StopBlind (f none)) :
    StopBlind (accept? select >>= f) := by
  intro s stop hs
  obtain ⟨token, rest, hrest⟩ := List.exists_cons_of_ne_nil hs
  have hstopped : (s.stopped stop).rest = token :: rest := hrest
  rw [bind_apply, bind_apply, accept?_of_rest hrest, accept?_of_rest hstopped]
  cases select token.kind with
  | none => exact hf s stop hs
  | some a => exact .inl rfl

theorem expression (k : Nat) : StopBlind (expression k) := by
  cases k with
  | zero => exact failHere _
  | succ k =>
    have hprimary : StopBlind (primary (Parser.expression k)) := by
      rw [primary_eq]
      exact (failHere _).byHead _
    have hunary (steps : Nat) : StopBlind (unary (call (k + 1) (Parser.expression k)) steps) := by
      cases steps with
      | zero => exact hprimary.bind _
      | succ steps => exact accept?_bind (hprimary.bind _)
    have hbinary (levels : List Level) : StopBlind
        (binary (k + 1) (unary (call (k + 1) (Parser.expression k)) (k + 1)) levels) := by
      induction levels with
      | nil => exact hunary _
      | cons level tighter ih => exact ih.bind _
    exact (hbinary levels).bind _

end StopBlind

/-- **Where the last token stopped does not matter to a declaration.** -/
theorem declaration_stopped (k : Nat) {s : State} (hs : s.rest ≠ []) (stop : Nat) :
    declaration (k + 1) (s.stopped stop) = declaration (k + 1) s := by
  have hbody : StopBlind (declarationBody k) := ((StopBlind.expression (k + 1)).bind _).byHead _
  rw [declaration_succ, recover, recover]
  rcases hbody s stop hs with h | ⟨fault, h, h'⟩
  · rw [h]
  · -- Skipping starts with the next token, and stops after the last one skipped.
    obtain ⟨token, rest, hrest⟩ := List.exists_cons_of_ne_nil hs
    rw [h, h']
    simp only [State.record, State.synchronize, State.stopped, hrest]

end Parser

end BlockScript
