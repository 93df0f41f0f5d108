import BlockScript.Proofs.Cursor

/-!
# Two parsers side by side

A parser with a cursor can be run next to one that takes tokens off a list. A cursor *shows* a
state if the tokens before it were read, those from it up to the first end of input are left, and
the depth and the faults are the same. One parser *tracks* the other if, from a cursor that shows a
state with few enough tokens left, it ends at a cursor that shows the state which the other one ends
in, with the same value or the same fault. In particular it ends, and without a misstep.

Each way of reading a token has a rule. The tokens read so far stand in the judgement, since looking
back needs one of them. A rule that reads a token asks for one less to be left afterwards.

## Main definitions

* `Cursor.Shows` — a cursor and a state are at the same place
* `Cursor.Tracks` — one parser does what the other does

## Main results

* `Cursor.Tracks.bind` — sequencing
* `Cursor.Tracks.accepts_byHead` — one kind of token after the other, or all at once
-/

namespace BlockScript

namespace Cursor

open BlockScript.Parser (State stateAfter stopAfter)

variable {α β γ : Type}

/-! ## Actions one after the other -/

/-- What an action comes to, if it ends. -/
abbrev Reply (α : Type) := Option (Except Misstep (Except Located α × Cursor))

theorem bind_of_ok {q : Action α} {f : α → Action β} {c c' : Cursor} {a : α}
    (h : q c = some (.ok (.ok a, c'))) : (q >>= f) c = f a c' := by
  simp only [bind, StateT.bind, ExceptT.bind, ExceptT.mk]
  rw [h]
  rfl

theorem bind_of_error {q : Action α} {f : α → Action β} {c c' : Cursor} {fault : Located}
    (h : q c = some (.ok (.error fault, c'))) : (q >>= f) c = some (.ok (.error fault, c')) := by
  simp only [bind, StateT.bind, ExceptT.bind, ExceptT.mk]
  rw [h]
  rfl

theorem walk_bind {w : Walk α} {f : α → Walk β} {c c' : Cursor} {a : α}
    (h : w c = some (.ok (a, c'))) : (w >>= f) c = f a c' := by
  simp only [bind, StateT.bind, ExceptT.bind, ExceptT.mk]
  rw [h]
  rfl

/-! ## A cursor and a state -/

/-- The cursor shows the state, after the tokens `before`. -/
structure Shows (before : List Token) (c : Cursor) (s : State) : Prop where
  tokens : ∃ last more, c.tokens = before ++ s.rest ++ last :: more ∧ last.kind = .endOfInput ∧
    last.span = s.finish
  clear : ∀ token ∈ before ++ s.rest, token.kind ≠ .endOfInput
  current : c.current = before.length
  depth : c.depth = s.depth
  faults : c.faults = s.faults
  stop : s.lastStop = stopAfter 0 before

/-- The cursor after the next token was read. -/
def next (c : Cursor) : Cursor := { c with current := c.current + 1 }

namespace Shows

variable {before rest : List Token} {token : Token} {c : Cursor} {s : State}

theorem peek_eq (h : Shows before c s) {more : List Token}
    (htokens : c.tokens = before ++ token :: more) : peek c = some (.ok (.ok token, c)) := by
  have hbefore : (c.tokens.take c.current).any (·.kind = .endOfInput) = false := by
    rw [htokens, h.current, List.take_left, List.any_eq_false]
    intro token htoken
    simpa using h.clear token (List.mem_append_left _ htoken)
  have htoken : c.tokens[c.current]? = some token := by
    rw [htokens, h.current, List.getElem?_append_right (Nat.le_refl _), Nat.sub_self]
    rfl
  rw [peek, hbefore, htoken]
  rfl

theorem peek_of_rest (h : Shows before c s) (hrest : s.rest = token :: rest) :
    peek c = some (.ok (.ok token, c)) := by
  obtain ⟨last, more, htokens, -, -⟩ := h.tokens
  rw [hrest, List.append_assoc, List.cons_append] at htokens
  exact h.peek_eq htokens

theorem peek_of_end (h : Shows before c s) (hrest : s.rest = []) :
    ∃ last, peek c = some (.ok (.ok last, c)) ∧ last.kind = .endOfInput ∧ last.span = s.finish := by
  obtain ⟨last, more, htokens, hkind, hspan⟩ := h.tokens
  rw [hrest, List.append_nil] at htokens
  exact ⟨last, h.peek_eq htokens, hkind, hspan⟩

theorem exists_peek (h : Shows before c s) :
    ∃ token, peek c = some (.ok (.ok token, c)) ∧ token.span = s.here := by
  cases hrest : s.rest with
  | nil =>
    obtain ⟨last, hpeek, -, hspan⟩ := h.peek_of_end hrest
    exact ⟨last, hpeek, hspan.trans (State.here_of_end hrest).symm⟩
  | cons token rest => exact ⟨token, h.peek_of_rest hrest, by rw [State.here, hrest]⟩

theorem kind_of_rest (h : Shows before c s) (hrest : s.rest = token :: rest) :
    token.kind ≠ .endOfInput :=
  h.clear token (by simp [hrest])

theorem atEnd_eq (h : Shows before c s) : atEnd c = some (.ok (.ok s.rest.isEmpty, c)) := by
  cases hrest : s.rest with
  | nil =>
    obtain ⟨last, hpeek, hkind, -⟩ := h.peek_of_end hrest
    rw [atEnd, bind_of_ok hpeek, hkind]
    rfl
  | cons token rest =>
    rw [atEnd, bind_of_ok (h.peek_of_rest hrest), decide_eq_false (h.kind_of_rest hrest)]
    rfl

theorem check_eq (h : Shows before c s) (kind : Token.Kind) :
    check kind c = some (.ok (.ok (s.nextIs kind), c)) := by
  rw [check, bind_of_ok h.atEnd_eq]
  cases hrest : s.rest with
  | nil =>
    rw [State.nextIs_of_end hrest]
    rfl
  | cons token rest =>
    rw [State.nextIs_of_rest hrest]
    exact bind_of_ok (h.peek_of_rest hrest)

theorem next (h : Shows before c s) (hrest : s.rest = token :: rest) :
    Shows (before ++ [token]) c.next (s.after [token] rest) where
  tokens := by simpa [hrest, Cursor.next] using h.tokens
  clear := by simpa [hrest] using h.clear
  current := by simpa [Cursor.next] using h.current
  depth := h.depth
  faults := h.faults
  stop := by simp

theorem advance_of_rest (h : Shows before c s) (hrest : s.rest = token :: rest) :
    advance c = some (.ok (.ok (), c.next)) := by
  rw [advance, bind_of_ok h.atEnd_eq, hrest]
  rfl

theorem advance_of_end (h : Shows before c s) (hrest : s.rest = []) :
    advance c = some (.ok (.ok (), c)) := by
  rw [advance, bind_of_ok h.atEnd_eq, hrest]
  rfl

theorem previous_eq (h : Shows (before ++ [token]) c s) :
    previous c = some (.ok (.ok token, c)) := by
  obtain ⟨last, more, htokens, -, -⟩ := h.tokens
  have hcurrent : c.current = before.length + 1 := by rw [h.current, List.length_append]; rfl
  have htoken : c.tokens[before.length]? = some token := by
    rw [htokens]
    simp
  rw [previous, hcurrent]
  simp only [htoken]

theorem record (h : Shows before c s) (fault : Located) :
    Shows before { c with faults := c.faults ++ [fault] } (s.record fault) where
  tokens := h.tokens
  clear := h.clear
  current := h.current
  depth := h.depth
  faults := by rw [h.faults]; rfl
  stop := h.stop

/-- Reading the next token if it is of a kind, by the token. -/
theorem accepts_of_rest (h : Shows before c s) (hrest : s.rest = token :: rest)
    (kind : Token.Kind) :
    accepts kind c = if token.kind = kind then some (.ok (.ok true, c.next))
      else some (.ok (.ok false, c)) := by
  rw [accepts, bind_of_ok (h.check_eq kind), State.nextIs_of_rest hrest]
  by_cases hkind : token.kind = kind
  · rw [decide_eq_true hkind, if_pos hkind]
    exact bind_of_ok (h.advance_of_rest hrest)
  · rw [decide_eq_false hkind, if_neg hkind]
    rfl

theorem accepts_of_end (h : Shows before c s) (hrest : s.rest = []) (kind : Token.Kind) :
    accepts kind c = some (.ok (.ok false, c)) := by
  rw [accepts, bind_of_ok (h.check_eq kind), State.nextIs_of_end hrest]
  rfl

theorem accept?_of_rest (h : Shows before c s) (hrest : s.rest = token :: rest)
    (select : Token.Kind → Option α) :
    accept? select c = match select token.kind with
      | some a => some (.ok (.ok (some a), c.next))
      | none => some (.ok (.ok none, c)) := by
  rw [accept?, bind_of_ok h.atEnd_eq, hrest]
  refine (bind_of_ok (h.peek_of_rest hrest)).trans ?_
  cases select token.kind with
  | none => rfl
  | some a => exact bind_of_ok (h.advance_of_rest hrest)

theorem accept?_of_end (h : Shows before c s) (hrest : s.rest = [])
    (select : Token.Kind → Option α) : accept? select c = some (.ok (.ok none, c)) := by
  rw [accept?, bind_of_ok h.atEnd_eq, hrest]
  rfl

end Shows

/-! ## One parser tracks another -/

/-- The value or the fault of a parser. -/
def outcome : EStateM.Result Located State α → Except Located α
  | .ok a _ => .ok a
  | .error fault _ => .error fault

/-- From a cursor after the tokens `before`, which shows the state `s`, the reply is the result of
the other parser. -/
def Arrives (before : List Token) (s : State) (reply : Reply α)
    (r : EStateM.Result Located State α) : Prop :=
  ∃ words c, reply = some (.ok (outcome r, c)) ∧ s.rest = words ++ (stateAfter r).rest ∧
    Shows (before ++ words) c (stateAfter r) ∧ (stateAfter r).depth = s.depth

/-- The parser with a cursor does what the other one does, with fewer than `n` tokens left. -/
def Tracks (n : Nat) (before : List Token) (q : Action α) (p : Parser α) : Prop :=
  ∀ c s, Shows before c s → s.rest.length < n → Arrives before s (q c) (p s)

namespace Arrives

variable {before words rest : List Token} {s s' : State} {reply : Reply α}
  {r : EStateM.Result Located State α} {c : Cursor}

theorem ok {a : α} (h : Shows before c s) : Arrives before s (some (.ok (.ok a, c))) (.ok a s) :=
  ⟨[], c, rfl, rfl, by rwa [List.append_nil], rfl⟩

theorem error {fault : Located} (h : Shows before c s) :
    Arrives before s (some (.ok (.error fault, c)) : Reply α) (.error fault s) :=
  ⟨[], c, rfl, rfl, by rwa [List.append_nil], rfl⟩

/-- Tokens were read before. -/
theorem prepend (words : List Token) (hrest : s.rest = words ++ s'.rest)
    (hdepth : s'.depth = s.depth) (h : Arrives (before ++ words) s' reply r) :
    Arrives before s reply r := by
  obtain ⟨words', c', hreply, hrest', hshows, hdepth'⟩ := h
  refine ⟨words ++ words', c', hreply, ?_, ?_, hdepth'.trans hdepth⟩
  · rw [hrest, hrest', List.append_assoc]
  · rwa [← List.append_assoc]

/-- The second parser goes on where the first one left off. -/
theorem bind {q : Action α} {p : Parser α} {f : α → Action β} {g : α → Parser β}
    (hq : Arrives before s (q c) (p s)) (hf : ∀ words a c' s', p s = .ok a s' →
      s.rest = words ++ s'.rest → Shows (before ++ words) c' s' →
        Arrives (before ++ words) s' (f a c') (g a s')) :
    Arrives before s ((q >>= f) c) ((p >>= g) s) := by
  obtain ⟨words, c', hreply, hrest, hshows, hdepth⟩ := hq
  rw [Parser.bind_apply]
  cases hr : p s with
  | error fault s' =>
    rw [hr] at hreply hrest hshows hdepth
    exact ⟨words, c', bind_of_error hreply, hrest, hshows, hdepth⟩
  | ok a s' =>
    rw [hr] at hreply hrest hshows hdepth
    rw [bind_of_ok hreply]
    exact .prepend words hrest hdepth (hf words a c' s' hr hrest hshows)

end Arrives

namespace Tracks

variable {n m : Nat} {before : List Token} {q : Action α} {p : Parser α} {f : α → Action β}
  {g : α → Parser β}

theorem mono (h : Tracks n before q p) (hm : m ≤ n) : Tracks m before q p :=
  fun c s hs hlt => h c s hs (Nat.lt_of_lt_of_le hlt hm)

theorem zero : Tracks 0 before q p := fun _ _ _ hlt => absurd hlt (Nat.not_lt_zero _)

protected theorem pure (a : α) : Tracks n before (pure a : Action α) (pure a) :=
  fun _ _ hs _ => .ok hs

/-- **Sequencing.** Each of the parsers tracks the other one where the first two leave off. -/
theorem bind (hq : Tracks n before q p)
    (hf : ∀ words a, Tracks n (before ++ words) (f a) (g a)) :
    Tracks n before (q >>= f) (p >>= g) := by
  intro c s hs hlt
  refine (hq c s hs hlt).bind fun words a c' s' _ hrest hshows => hf words a c' s' hshows ?_
  have hle : s'.rest.length ≤ s.rest.length := by
    rw [hrest, List.length_append]
    exact Nat.le_add_left _ _
  exact Nat.lt_of_le_of_lt hle hlt

theorem map (hq : Tracks n before q p) :
    Tracks n before (q >>= fun a => pure (some a)) (some <$> p) := by
  rw [Parser.map_eq_bind]
  exact hq.bind fun _ a => .pure (some a)

/-- The next token was read. -/
theorem cons {c : Cursor} {s : State} {token : Token} {rest : List Token}
    (h : Tracks m (before ++ [token]) q p) (hs : Shows before c s) (hrest : s.rest = token :: rest)
    (hlt : s.rest.length < m + 1) : Arrives before s (q c.next) (p (s.after [token] rest)) := by
  rw [hrest] at hlt
  have hrest' : s.rest = [token] ++ (s.after [token] rest).rest := hrest
  exact .prepend [token] hrest' rfl (h _ _ (hs.next hrest) (Nat.lt_of_succ_lt_succ hlt))

/-! ### Single tokens -/

theorem failHere_bind (fault : Fault) :
    Tracks n before (failHere fault >>= f) (Parser.failHere fault >>= g) := by
  intro c s hs _
  obtain ⟨token, hpeek, hspan⟩ := hs.exists_peek
  rw [failHere, bind_assoc, bind_of_ok hpeek, hspan]
  exact .error hs

theorem record (fault : Fault) (span : Span) :
    Tracks n before (record ⟨fault, span⟩) (Parser.report fault span) :=
  fun _ _ hs _ => ⟨[], _, rfl, rfl, by rw [List.append_nil]; exact hs.record ⟨fault, span⟩, rfl⟩

theorem peek_bind {f : Token → Action β} {g : Span → Parser β}
    (h : ∀ token, Tracks n before (f token) (g token.span)) :
    Tracks n before (peek >>= f) (Parser.here >>= g) := by
  intro c s hs hlt
  obtain ⟨token, hpeek, hspan⟩ := hs.exists_peek
  have hhere : (Parser.here >>= g) s = g token.span s := by rw [hspan]; rfl
  rw [bind_of_ok hpeek, hhere]
  exact h token c s hs hlt

theorem check_bind {kind : Token.Kind} {f : Bool → Action β} {g : Bool → Parser β}
    (htrue : Tracks n before (f true) (g true)) (hfalse : Tracks n before (f false) (g false)) :
    Tracks n before (check kind >>= f) (Parser.nextIs kind >>= g) := by
  intro c s hs hlt
  have hnext : (Parser.nextIs kind >>= g) s = g (s.nextIs kind) s := rfl
  rw [bind_of_ok (hs.check_eq kind), hnext]
  cases s.nextIs kind with
  | true => exact htrue c s hs hlt
  | false => exact hfalse c s hs hlt

theorem accept?_bind {select : Token.Kind → Option γ} {f : Option γ → Action β}
    {g : Option (γ × Token) → Parser β} (hnone : Tracks n before (f none) (g none))
    (hsome : ∀ a token, select token.kind = some a →
      Tracks m (before ++ [token]) (f (some a)) (g (some (a, token)))) (hm : n ≤ m + 1) :
    Tracks n before (accept? select >>= f) (Parser.accept? select >>= g) := by
  intro c s hs hlt
  rw [Parser.bind_apply]
  cases hrest : s.rest with
  | nil =>
    rw [bind_of_ok (hs.accept?_of_end hrest select), Parser.accept?_of_end hrest]
    exact hnone c s hs hlt
  | cons token rest =>
    have haccept := hs.accept?_of_rest hrest select
    rw [Parser.accept?_of_rest hrest]
    cases hselect : select token.kind with
    | none =>
      rw [hselect] at haccept
      rw [bind_of_ok haccept]
      exact hnone c s hs hlt
    | some a =>
      rw [hselect] at haccept
      rw [bind_of_ok haccept]
      exact (hsome a token hselect).cons hs hrest (Nat.lt_of_lt_of_le hlt hm)

end Tracks

/-- The branches for tokens that are not of a kind. -/
def without (kind : Token.Kind) (branch : Token → Option (Parser α)) :
    Token → Option (Parser α) :=
  fun token => if token.kind = kind then none else branch token

namespace Tracks

variable {n m : Nat} {before : List Token} {f : Bool → Action β}

/-- One parser tries a kind of token after the other, the other one looks at the token. -/
theorem accepts_byHead {kind : Token.Kind} {branch : Token → Option (Parser β)}
    {otherwise : Parser β} (hyes : ∀ token, token.kind = kind →
      ∃ p, branch token = some p ∧ Tracks m (before ++ [token]) (f true) p)
    (hno : Tracks n before (f false) (Parser.byHead (without kind branch) otherwise))
    (hm : n ≤ m + 1) :
    Tracks n before (accepts kind >>= f) (Parser.byHead branch otherwise) := by
  intro c s hs hlt
  cases hrest : s.rest with
  | nil =>
    have h := hno c s hs hlt
    rw [Parser.byHead_of_end hrest] at h
    rw [bind_of_ok (hs.accepts_of_end hrest kind), Parser.byHead_of_end hrest]
    exact h
  | cons token rest =>
    have haccepts := hs.accepts_of_rest hrest kind
    by_cases hkind : token.kind = kind
    · rw [if_pos hkind] at haccepts
      obtain ⟨p, hp, hyes⟩ := hyes token hkind
      rw [bind_of_ok haccepts, Parser.byHead_of_some hrest hp]
      exact hyes.cons hs hrest (Nat.lt_of_lt_of_le hlt hm)
    · rw [if_neg hkind] at haccepts
      have hsame : Parser.byHead (without kind branch) otherwise s =
          Parser.byHead branch otherwise s := by
        simp only [Parser.byHead, hrest, without, if_neg hkind]
      rw [bind_of_ok haccepts, ← hsame]
      exact hno c s hs hlt

theorem accepts_bind {kind : Token.Kind} {g : Option Token → Parser β}
    (hnone : Tracks n before (f false) (g none)) (hsome : ∀ token, token.kind = kind →
      Tracks m (before ++ [token]) (f true) (g (some token))) (hm : n ≤ m + 1) :
    Tracks n before (accepts kind >>= f) (Parser.acceptKind? kind >>= g) := by
  rw [Parser.acceptKind?_bind_eq]
  refine accepts_byHead (fun token hkind => ⟨_, if_pos hkind, hsome token hkind⟩) ?_ hm
  rw [Parser.byHead_eq_of_forall fun token => ?_]
  · exact hnone
  · exact ite_eq_left_iff.mpr fun hkind => if_neg hkind

theorem previous_bind {token : Token} {f : Token → Action β} {p : Parser β}
    (h : Tracks n (before ++ [token]) (f token) p) :
    Tracks n (before ++ [token]) (previous >>= f) p := by
  intro c s hs hlt
  rw [bind_of_ok hs.previous_eq]
  exact h c s hs hlt

/-- To consume a kind is to accept it and to look back, or to break off. -/
theorem consume_eq (kind : Token.Kind) (what : String) :
    consume kind what =
      accepts kind >>= fun found =>
        if found then previous else Cursor.failHere (.expected what) := by
  rw [consume, accepts, bind_assoc]
  congr 1
  funext found
  cases found with
  | false => rw [if_neg Bool.false_ne_true, if_neg Bool.false_ne_true, pure_bind]; rfl
  | true => rw [if_pos rfl, if_pos rfl, bind_assoc]; rfl

/-- What is given is the token that was read, found by looking back. -/
theorem consume_bind {kind : Token.Kind} {what : String} {f : Token → Action β}
    {g : Token → Parser β} (h : ∀ token, token.kind = kind →
      Tracks m (before ++ [token]) (f token) (g token)) (hm : n ≤ m + 1) :
    Tracks n before (consume kind what >>= f) (Parser.expect kind what >>= g) := by
  rw [consume_eq, Parser.expect_eq, bind_assoc, bind_assoc]
  refine accepts_bind ?_ (fun token htoken => ?_) hm
  · exact failHere_bind (.expected what)
  · exact previous_bind (h token htoken)

theorem spanFrom_bind {start : Nat} {f : Span → Action β} {g : Span → Parser β}
    (hbefore : before ≠ []) (h : ∀ span, Tracks n before (f span) (g span)) :
    Tracks n before (spanFrom start >>= f) (Parser.spanFrom start >>= g) := by
  intro c s hs hlt
  -- there is a token to look back at
  obtain ⟨others, token, rfl⟩ := (List.eq_nil_or_concat before).resolve_left hbefore
  rw [List.concat_eq_append] at h hs ⊢
  have hstop : s.lastStop = token.span.stop := by rw [hs.stop]; simp
  have hspan : (Parser.spanFrom start >>= g) s = g ⟨start, token.span.stop⟩ s := hstop ▸ rfl
  rw [spanFrom, bind_assoc, bind_of_ok hs.previous_eq, pure_bind, hspan]
  exact h _ c s hs hlt

end Tracks

end Cursor

end BlockScript
