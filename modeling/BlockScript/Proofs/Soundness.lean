import BlockScript.Proofs.Completeness

/-!
# What the parser reads without a fault, the grammar derives

If a parser gives a value and has recorded no fault, then the tokens it took off its input are a
word of the grammar. Faults are only ever added, so one that is recorded anywhere on the way is
still there at the end. That is the first half of `Sound`, and it is why what is known at the end of
a long run can be used at each step of it.

For expressions the tree is part of what is derived, since an assignment looks at the tree on its
left. For statements it is not: which tree a word has is settled by the other direction, where the
parser reads each word as one tree. It is enough here that the word can be derived at all, with an
`else` belonging to any `if`.

## Main definitions

* `Parser.Follows` — a later state has all the faults of an earlier one
* `Parser.Sound` — what a parser reads without a fault belongs to a language

## Main results

* `Parser.Sound.bind` — sequencing
* `Parser.sound_expression`, `Parser.sound_statement_declaration` — the parser reads words of the
  grammar
* `Parser.derives_program` — so does the whole parser, and it reads all of its input
-/

namespace BlockScript

namespace Parser

variable {α β : Type}

/-! ## Faults are only added -/

/-- The state that a parser leaves behind, whether it gave a value or broke off. -/
def stateAfter : EStateM.Result Located State α → State
  | .ok _ s => s
  | .error _ s => s

/-- The second state has the faults of the first one and perhaps more, and the same depth. -/
structure Follows (s s' : State) : Prop where
  faults : s.faults <+: s'.faults
  depth : s'.depth = s.depth

theorem Follows.refl (s : State) : Follows s s := ⟨List.prefix_rfl, rfl⟩

theorem Follows.trans {s s' s'' : State} (h : Follows s s') (h' : Follows s' s'') :
    Follows s s'' := ⟨h.faults.trans h'.faults, h'.depth.trans h.depth⟩

theorem Follows.advance (s : State) : Follows s s.advance := by
  unfold State.advance
  split <;> exact ⟨List.prefix_rfl, rfl⟩

theorem Follows.record (s : State) (fault : Located) : Follows s (s.record fault) :=
  ⟨List.prefix_append .., rfl⟩

theorem Follows.synchronize (s : State) : Follows s s.synchronize := by
  unfold State.synchronize
  split <;> exact ⟨List.prefix_rfl, rfl⟩

/-- If no fault is there at the end, none was there on the way. -/
theorem Follows.faults_eq {s s' s'' : State} (h : Follows s s') (h' : Follows s' s'')
    (heq : s''.faults = s.faults) : s'.faults = s.faults ∧ s''.faults = s'.faults := by
  have hle : s'.faults <+: s.faults := heq ▸ h'.faults
  have hs : s'.faults = s.faults := hle.eq_of_length_le h.faults.length_le
  exact ⟨hs, heq.trans hs.symm⟩

/-! ## Languages -/

/-- What a parser read from a state belongs to the language, together with the value it gave, if no
fault was recorded and fewer than `n` tokens were left. `inside` tells whether a function may be
around them. -/
structure SoundAt (n : Nat) (inside : Bool) (language : List Token → α → Prop) (s : State)
    (r : EStateM.Result Located State α) : Prop where
  follows : Follows s (stateAfter r)
  derives : ∀ (a : α) (s' : State), r = .ok a s' → s'.faults = s.faults → s.rest.length < n →
    (0 < s.depth → inside = true) → ∃ words, s.rest = words ++ s'.rest ∧ language words a

/-- Whatever a parser reads without a fault belongs to the language. -/
def Sound (n : Nat) (inside : Bool) (p : Parser α) (language : List Token → α → Prop) : Prop :=
  ∀ s : State, SoundAt n inside language s (p s)

namespace SoundAt

variable {n m : Nat} {inside : Bool} {language : List Token → α → Prop} {s : State}

/-- Nothing was read. -/
theorem same {a : α} (h : language [] a) : SoundAt n inside language s (.ok a s) where
  follows := .refl s
  derives b s' hr _ _ _ := by
    injection hr with hb hs
    subst hb hs
    exact ⟨[], rfl, h⟩

/-- A parser that broke off gave no value. -/
theorem error (fault : Located) : SoundAt n inside language s (.error fault s) :=
  ⟨.refl s, fun _ _ hr => nomatch hr⟩

/-- The first token was read, and another parser did the rest. -/
theorem advance {token : Token} {rest : List Token} {p : Parser α} (hs : s.rest = token :: rest)
    (h : Sound m inside p fun words a => language (token :: words) a) (hm : n ≤ m + 1) :
    SoundAt n inside language s (p s.advance) where
  follows := (Follows.advance s).trans (h s.advance).follows
  derives a s' hr hfaults hn hin := by
    rw [State.advance_of_rest hs] at hr
    have hlen : rest.length + 1 < n := by rw [hs] at hn; exact hn
    obtain ⟨words, hwords, hlang⟩ := (h (s.after [token] rest)).derives a s' hr hfaults
      (by rw [State.after_rest]; omega) hin
    exact ⟨token :: words, by rw [hs, ← State.after_rest s [token] rest, hwords]; rfl, hlang⟩

end SoundAt

namespace Sound

variable {n m : Nat} {inside : Bool} {p : Parser α} {f : α → Parser β}
  {language : List Token → α → Prop} {result : List Token → β → Prop}

theorem imp {language' : List Token → α → Prop} (h : Sound n inside p language)
    (himp : ∀ words a, language words a → language' words a) : Sound n inside p language' := by
  refine fun s => ⟨(h s).follows, fun a s' hr hfaults hn hin => ?_⟩
  obtain ⟨words, hwords, hlang⟩ := (h s).derives a s' hr hfaults hn hin
  exact ⟨words, hwords, himp words a hlang⟩

theorem mono (h : Sound n inside p language) (hm : m ≤ n) : Sound m inside p language := fun s =>
  ⟨(h s).follows, fun a s' hr hfaults hn =>
    (h s).derives a s' hr hfaults (Nat.lt_of_lt_of_le hn hm)⟩

protected theorem pure {a : α} (h : language [] a) : Sound n inside (pure a : Parser α) language :=
  fun _ => .same h

theorem failHere (fault : Fault) : Sound n inside (failHere fault : Parser α) language :=
  fun s => .error ⟨fault, s.here⟩

/-- A parser that records a fault reads nothing without a fault. -/
theorem report (fault : Fault) (span : Span) :
    Sound n inside (report fault span) fun _ _ => False := by
  refine fun s => ⟨.record s _, fun a s' hr hfaults => ?_⟩
  injection hr with _ hs
  subst hs
  exact absurd hfaults (by simp [State.record])

/-- **Sequencing.** The words of the second parser are to be put after any words of the first one
that go with the value it gave. -/
theorem bind (hp : Sound n inside p language)
    (hf : ∀ a, Sound n inside (f a) fun rest b =>
      ∀ words, language words a → result (words ++ rest) b) :
    Sound n inside (p >>= f) result := by
  intro s
  rw [bind_apply]
  have hs := hp s
  cases hr : p s with
  | error fault s' =>
    rw [hr] at hs
    exact ⟨hs.follows, fun _ _ h => nomatch h⟩
  | ok a s' =>
    rw [hr] at hs
    have hs' := hf a s'
    refine ⟨hs.follows.trans hs'.follows, fun b s'' hr' hfaults hn hin => ?_⟩
    have hfollows : Follows s' s'' := by
      have := hs'.follows
      rwa [show f a s' = .ok b s'' from hr'] at this
    obtain ⟨hsame, hsame'⟩ := Follows.faults_eq hs.follows hfollows hfaults
    obtain ⟨words, hwords, hlang⟩ := hs.derives a s' rfl hsame hn hin
    have hlen : s'.rest.length ≤ s.rest.length := by simp [hwords]
    obtain ⟨rest, hrest, hresult⟩ := hs'.derives b s'' hr' hsame' (by omega)
      (by rw [show s'.depth = s.depth from hs.follows.depth]; exact hin)
    exact ⟨words ++ rest, by rw [hwords, hrest, List.append_assoc], hresult words hlang⟩

theorem map (hp : Sound n inside p language) (g : α → β)
    (h : ∀ words a, language words a → result words (g a)) : Sound n inside (g <$> p) result := by
  rw [map_eq_bind]
  exact hp.bind fun a => .pure fun words hlang => by rw [List.append_nil]; exact h words a hlang

/-! ### Single tokens -/

theorem expect_bind {kind : Token.Kind} {what : String} {f : Token → Parser β}
    (hf : ∀ token, Sound m inside (f token) fun words b =>
      token.kind = kind → result (token :: words) b)
    (hm : n ≤ m + 1) : Sound n inside (Parser.expect kind what >>= f) result := by
  intro s
  rw [bind_apply, Parser.expect]
  cases hs : s.rest with
  | nil => exact .error _
  | cons token rest =>
    by_cases hkind : token.kind = kind
    · simp only [hkind, if_true]
      exact .advance hs ((hf token).imp fun words b h => h hkind) hm
    · simp only [hkind, if_false]
      exact .error _

theorem acceptKind?_bind {kind : Token.Kind} {f : Option Token → Parser β}
    (hnone : Sound n inside (f none) result)
    (hsome : ∀ token, Sound m inside (f (some token)) fun words b =>
      token.kind = kind → result (token :: words) b)
    (hm : n ≤ m + 1) : Sound n inside (acceptKind? kind >>= f) result := by
  intro s
  rw [bind_apply, acceptKind?]
  cases hs : s.rest with
  | nil => exact hnone s
  | cons token rest =>
    by_cases hkind : token.kind = kind
    · simp only [hkind, if_true]
      exact .advance hs ((hsome token).imp fun words b h => h hkind) hm
    · simp only [hkind, if_false]
      exact hnone s

theorem accept?_bind {γ : Type} {select : Token.Kind → Option γ}
    {f : Option (γ × Token) → Parser β} (hnone : Sound n inside (f none) result)
    (hsome : ∀ c token, Sound m inside (f (some (c, token))) fun words b =>
      select token.kind = some c → result (token :: words) b)
    (hm : n ≤ m + 1) : Sound n inside (accept? select >>= f) result := by
  intro s
  rw [bind_apply, accept?]
  cases hs : s.rest with
  | nil => exact hnone s
  | cons token rest =>
    cases hkind : select token.kind with
    | some c =>
      simp only [hkind]
      exact .advance hs ((hsome c token).imp fun words b h => h hkind) hm
    | none =>
      simp only [hkind]
      exact hnone s

theorem nextIs_bind {kind : Token.Kind} {f : Bool → Parser β}
    (hf : ∀ b, Sound n inside (f b) result) : Sound n inside (nextIs kind >>= f) result :=
  fun s => hf (s.nextIs kind) s

theorem here_bind {f : Span → Parser β} (hf : ∀ span, Sound n inside (f span) result) :
    Sound n inside (here >>= f) result := fun s => hf s.here s

theorem spanFrom_bind {start : Nat} {f : Span → Parser β}
    (hf : ∀ span, Sound n inside (f span) result) :
    Sound n inside (spanFrom start >>= f) result := fun s => hf ⟨start, s.lastStop⟩ s

/-! ### Parts that may be missing, functions and recovery -/

theorem unlessNext {kind : Token.Kind} (hp : Sound n inside p language) :
    Sound n inside (unlessNext kind p) fun words value =>
      (words = [] ∧ value = none) ∨ ∃ a, value = some a ∧ language words a :=
  nextIs_bind fun b => by
    cases b with
    | true => exact .pure (.inl ⟨rfl, rfl⟩)
    | false => exact hp.map some fun words a h => .inr ⟨a, rfl, h⟩

theorem insideFunction (hp : Sound n true p language) :
    Sound n inside (insideFunction p) language := by
  intro s
  have hs := hp { s with depth := s.depth + 1 }
  rw [Parser.insideFunction]
  cases hr : p { s with depth := s.depth + 1 } with
  | error fault s' =>
    rw [hr] at hs
    exact ⟨⟨hs.follows.faults, rfl⟩, fun _ _ h => by cases h⟩
  | ok a s' =>
    rw [hr] at hs
    refine ⟨⟨hs.follows.faults, rfl⟩, fun b s'' hr' hfaults hn _ => ?_⟩
    injection hr' with hb hs''
    subst hb hs''
    exact hs.derives a s' rfl hfaults hn fun _ => rfl

/-- A parser that broke off has left a fault, so what is read without one was read to its end. -/
theorem recover (hp : Sound n inside p language) :
    Sound n inside (recover p) fun words value => ∃ a, value = some a ∧ language words a := by
  intro s
  have hs := hp s
  rw [Parser.recover]
  cases hr : p s with
  | ok a s' =>
    rw [hr] at hs
    refine ⟨hs.follows, fun b s'' hr' hfaults hn hin => ?_⟩
    injection hr' with hb hs''
    subst hb hs''
    obtain ⟨words, hwords, hlang⟩ := hs.derives a s' rfl hfaults hn hin
    exact ⟨words, hwords, a, rfl, hlang⟩
  | error fault s' =>
    rw [hr] at hs
    have hrecord : Follows s (s'.record fault) := hs.follows.trans (.record s' fault)
    refine ⟨hrecord.trans (.synchronize _), fun b s'' hr' hfaults _ _ => ?_⟩
    injection hr' with _ hs''
    subst hs''
    have hsame := (hrecord.faults_eq (.synchronize _) hfaults).1
    have hlen : s'.faults.length + 1 = s.faults.length := by
      rw [← hsame, State.record, List.length_append]
      rfl
    have hle : s.faults.length ≤ s'.faults.length := hs.follows.faults.length_le
    omega

end Sound

/-! ## Expressions -/

variable {n m : Nat} {inside : Bool}

/-- Items of a language with commas between them. -/
def Items (language : List Token → α → Prop) (words : List Token) (as : List α) : Prop :=
  ∃ items : List (List Token × α), as = items.map Prod.snd ∧
    Grammar.Separated (items.map Prod.fst) words ∧ ∀ i ∈ items, language i.1 i.2

theorem Items.cons {language : List Token → α → Prop} {first words : List Token} {comma : Token}
    {a : α} {as : List α} (ha : language first a) (hcomma : comma.kind = .symbol .comma)
    (has : as ≠ []) (h : Items language words as) :
    Items language (first ++ comma :: words) (a :: as) := by
  obtain ⟨items, rfl, hsep, hitems⟩ := h
  have hne : items.map Prod.fst ≠ [] := by simpa using has
  exact ⟨(first, a) :: items, rfl, .more hcomma hne hsep, List.forall_mem_cons.mpr ⟨ha, hitems⟩⟩

theorem sound_checkCount {tooMany : Nat → Fault} {count : Nat} :
    Sound n inside (checkCount tooMany count) fun words _ => words = [] ∧ count < maxItems := by
  unfold checkCount
  split
  · exact Sound.here_bind fun span => (Sound.report _ span).imp fun _ _ h => h.elim
  · exact .pure ⟨rfl, by omega⟩

theorem sound_commaSeparated {item : Parser α} {language : List Token → α → Prop}
    {tooMany : Nat → Fault} (steps : Nat) :
    ∀ {n count : Nat}, Sound n inside item language → n ≤ steps →
      Sound n inside (commaSeparated tooMany item steps count) fun words as =>
        as ≠ [] ∧ count + as.length ≤ maxItems ∧ Items language words as := by
  induction steps with
  | zero =>
    -- With no steps left there are no tokens left either.
    intro n count _ hn s
    exact ⟨.refl s, fun _ _ _ _ hlt => absurd hlt (by omega)⟩
  | succ steps ih =>
    intro n count hitem hn
    refine sound_checkCount.bind fun _ => hitem.bind fun first => ?_
    refine .acceptKind?_bind (.pure ?_) (m := n - 1) (fun comma => ?_) (by omega)
    · rintro words hfirst _ ⟨rfl, hcount⟩
      rw [List.append_nil, List.nil_append]
      exact ⟨by simp, hcount, [(words, first)], rfl, .one words, by simpa using hfirst⟩
    · refine (ih (hitem.mono (by omega)) (by omega)).bind fun others => .pure ?_
      rintro words ⟨hne, hcount, hothers⟩ hcomma first' hfirst _ ⟨rfl, -⟩
      rw [List.append_nil, List.nil_append]
      exact ⟨by simp, by simp only [List.length_cons]; omega, hothers.cons hfirst hcomma hne⟩

theorem sound_itemList {item : Parser α} {language : List Token → α → Prop} {steps : Nat}
    {tooMany : Nat → Fault} (hitem : Sound n inside item language) (hn : n ≤ steps) :
    Sound n inside (itemList steps tooMany item) fun words as =>
      as.length ≤ maxItems ∧ Items language words as :=
  .nextIs_bind fun b => by
    cases b with
    | true => exact .pure ⟨Nat.zero_le _, [], rfl, .none, fun _ h => absurd h List.not_mem_nil⟩
    | false =>
      refine (sound_commaSeparated steps hitem hn).imp fun words as h => ?_
      exact ⟨by have := h.2.1; omega, h.2.2⟩

/-- What the grammar asks of an argument list. -/
structure IsArguments (call : Grammar.Arguments) : Prop where
  opening : call.opening.kind = .symbol .leftParen
  items : ∀ i ∈ call.items, Grammar.Expression .assignment i.1 i.2
  words : Grammar.Separated (call.items.map Prod.fst) call.words
  count : call.items.length ≤ maxItems
  closing : call.closing.kind = .symbol .rightParen

section Nested

-- The parser for nested expressions, which is only used after a token was read.
variable {nested : Parser Expr}

theorem sound_finishCall (hnested : Sound n inside nested (Grammar.Expression .assignment))
    {width : Nat} (hn : n ≤ width) (opening : Token) (callee : Expr) :
    Sound n inside (finishCall width nested callee) fun words tree =>
      opening.kind = .symbol .leftParen →
        ∃ call, IsArguments call ∧ opening :: words = call.all ∧ tree = call.apply callee := by
  refine (sound_itemList hnested hn).bind fun args => .expect_bind (fun closing => .pure ?_)
    (Nat.le_succ n)
  rintro hclosing words ⟨hcount, items, rfl, hsep, hitems⟩ hopening
  rw [List.length_map] at hcount
  exact ⟨⟨opening, items, words, closing⟩, ⟨hopening, hitems, hsep, hcount, hclosing⟩, rfl, rfl⟩

theorem sound_callsOf (hnested : Sound m inside nested (Grammar.Expression .assignment))
    {width : Nat} (hm : m ≤ width) (hn : n ≤ m + 1) (steps : Nat) :
    ∀ callee, Sound n inside (callsOf width nested steps callee) fun words tree =>
      ∃ calls : List Grammar.Arguments, (∀ c ∈ calls, IsArguments c) ∧
        words = calls.flatMap Grammar.Arguments.all ∧
        tree = calls.foldl Grammar.Arguments.apply callee := by
  induction steps with
  | zero => exact fun callee => .pure ⟨[], by simp⟩
  | succ steps ih =>
    intro callee
    refine .acceptKind?_bind (.pure ⟨[], by simp⟩) (m := n - 1) (fun opening => ?_) (by omega)
    refine ((sound_finishCall hnested hm opening callee).mono (by omega)).bind fun next =>
      ((ih next).mono (by omega)).imp ?_
    rintro _ tree ⟨calls, hcalls, rfl, rfl⟩ words hnext hopening
    obtain ⟨call, hcall, hwords, rfl⟩ := hnext hopening
    refine ⟨call :: calls, by simpa using ⟨hcall, hcalls⟩, ?_, rfl⟩
    rw [List.flatMap_cons, ← hwords, List.cons_append]

theorem sound_primary (hnested : Sound m inside nested (Grammar.Expression .assignment))
    (hn : n ≤ m + 1) : Sound n inside (primary nested) (Grammar.Expression .primary) := by
  intro s
  unfold primary
  split
  · exact .error _
  · rename_i token rest hs
    have hread {tree : Expr} (h : Grammar.Expression .primary [token] tree) :
        SoundAt n inside (Grammar.Expression .primary) s (.ok tree s.advance) :=
      .advance (p := pure tree) hs (.pure h) hn
    split
    · exact hread (.false ‹_›)
    · exact hread (.true ‹_›)
    · exact hread (.nil ‹_›)
    · exact hread (.literal (.inl ‹_›) ‹_›)
    · exact hread (.literal (.inl ‹_›) ‹_›)
    · exact hread (.literal (.inr ‹_›) ‹_›)
    · exact hread (.literal (.inr ‹_›) ‹_›)
    · exact hread (.ident ‹_›)
    · refine .advance hs (hnested.bind fun inner => .expect_bind (fun closing => .pure ?_)
        (Nat.le_succ m)) hn
      intro hclosing words hinner
      exact .group ‹_› hinner hclosing
    · exact .error _

theorem sound_call (hnested : Sound m inside nested (Grammar.Expression .assignment)) {width : Nat}
    (hm : m ≤ width) (hn : n ≤ m + 1) :
    Sound n inside (call width nested) (Grammar.Expression .call) := by
  refine (sound_primary hnested hn).bind fun callee =>
    (sound_callsOf hnested hm hn width callee).imp ?_
  rintro _ tree ⟨calls, hcalls, rfl, rfl⟩ words hcallee
  exact .call hcallee (fun c hc => (hcalls c hc).opening) (fun c hc => (hcalls c hc).items)
    (fun c hc => (hcalls c hc).words) (fun c hc => (hcalls c hc).count)
    fun c hc => (hcalls c hc).closing

end Nested

theorem unaryOp?_eq_some {kind : Token.Kind} {op : UnaryOp} (h : unaryOp? kind = some op) :
    (kind = .symbol .bang ∧ op = .not) ∨ (kind = .symbol .minus ∧ op = .negate) := by
  unfold unaryOp? at h
  split at h <;> simp_all

theorem sound_unary {operand : Parser Expr}
    (h : Sound n inside operand (Grammar.Expression .call)) (steps : Nat) :
    Sound n inside (unary operand steps) (Grammar.Expression .unary) := by
  induction steps with
  | zero => exact h.imp fun _ _ => .unaryCall
  | succ steps ih =>
    refine .accept?_bind (h.imp fun _ _ => .unaryCall) (m := n) (fun op token => ?_) (Nat.le_succ n)
    refine ih.bind fun inner => .pure ?_
    intro words hinner hop
    rw [List.append_nil]
    rcases unaryOp?_eq_some hop with ⟨htoken, rfl⟩ | ⟨htoken, rfl⟩
    · exact .not htoken hinner
    · exact .negate htoken hinner

theorem sound_chain {level : Level} {operand : Parser Expr} {language : List Token → Expr → Prop}
    (h : Sound n inside operand language) (steps : Nat) :
    ∀ left, Sound n inside (chain level operand steps left) fun words tree =>
      ∃ operations : List Grammar.Operation,
        (∀ o ∈ operations, level o.operator.kind = some o.joint ∧ language o.words o.right) ∧
        words = operations.flatMap Grammar.Operation.all ∧
        tree = operations.foldl Grammar.Operation.apply left := by
  induction steps with
  | zero => exact fun left => .pure ⟨[], by simp⟩
  | succ steps ih =>
    intro left
    refine .accept?_bind (.pure ⟨[], by simp⟩) (m := n) (fun joint token => ?_) (Nat.le_succ n)
    refine h.bind fun right => (ih (joint.join left right)).imp ?_
    rintro _ tree ⟨operations, hops, rfl, rfl⟩ words hright hjoint
    refine ⟨⟨token, joint, words, right⟩ :: operations, by simpa using ⟨⟨hjoint, hright⟩, hops⟩,
      by simp [Grammar.Operation.all], ?_⟩
    rw [List.foldl_cons, Grammar.Operation.apply_eq_join]

theorem sound_binary {operand : Parser Expr}
    (h : Sound n inside operand (Grammar.Expression .unary)) (steps : Nat) {levels : List Level}
    {entries : List Grammar.Level} (hlevels : List.Forall₂ Matches levels entries) :
    Sound n inside (binary steps operand levels) (Grammar.Expression (.binary entries)) := by
  induction hlevels with
  | nil => exact h.imp fun _ _ => .tightest
  | cons hlevel _ ih =>
    refine ih.bind fun first => (sound_chain ih steps first).imp ?_
    rintro _ tree ⟨operations, hops, rfl, rfl⟩ words hfirst
    exact .level hfirst (fun o ho => (hlevel _ _).mp (hops o ho).1) fun o ho => (hops o ho).2

/-- No operation makes a variable. -/
theorem eq_nil_of_foldl_eq_ident {step : Expr → α → Expr}
    (hstep : ∀ left a span name, step left a ≠ .ident span name) {as : List α} {first : Expr}
    {span : Span} {name : String} (h : as.foldl step first = .ident span name) : as = [] := by
  rcases List.eq_nil_or_concat as with rfl | ⟨as, a, rfl⟩
  · rfl
  · rw [List.concat_eq_append, List.foldl_append] at h
    exact absurd h (hstep _ a span name)

/-- Only an identifier stands for a variable. -/
theorem eq_of_derives_ident {symbol : Grammar.ExprSymbol} {words : List Token} {span : Span}
    {name : String} (h : Grammar.Expression symbol words (.ident span name)) :
    ∃ token, words = [token] ∧ token.kind = .identifier ∧ span = token.span ∧
      name = token.lexeme := by
  generalize htree : Expr.ident span name = tree at h
  induction h with
  | operand _ ih => exact ih htree
  | level _ _ _ ih =>
    have hnil := eq_nil_of_foldl_eq_ident (fun left o span name => by
      rw [Grammar.Operation.apply]
      cases o.joint <;> exact Expr.noConfusion) htree.symm
    subst hnil
    rw [List.flatMap_nil, List.append_nil]
    exact ih htree
  | tightest _ ih => exact ih htree
  | unaryCall _ ih => exact ih htree
  | call _ _ _ _ _ _ ih =>
    have hnil := eq_nil_of_foldl_eq_ident (fun left a span name => Expr.noConfusion) htree.symm
    subst hnil
    rw [List.flatMap_nil, List.append_nil]
    exact ih htree
  | @ident token hkind =>
    injection htree with hspan hname
    exact ⟨token, rfl, hkind, hspan, hname⟩
  | assign | not | negate | true | false | nil | literal | group => exact nomatch htree

theorem sound_assignment {nested : Parser Expr}
    (hnested : Sound m inside nested (Grammar.Expression .assignment)) {width : Nat}
    (hm : m ≤ width) (hn : n ≤ m + 1) :
    Sound n inside (assignment width nested) (Grammar.Expression .assignment) := by
  have hoperand := sound_binary (sound_unary (sound_call hnested hm hn) width) width matches_levels
  refine hoperand.bind fun target => .acceptKind?_bind (.pure ?_) (fun equals => ?_) hn
  · intro words htarget
    rw [List.append_nil]
    exact .operand htarget
  · refine hnested.bind fun value => ?_
    split
    · refine .pure ?_
      intro words hvalue hequals words' htarget
      obtain ⟨token, rfl, htoken, rfl, rfl⟩ := eq_of_derives_ident htarget
      rw [List.append_nil]
      exact .assign htoken hequals hvalue
    · exact (Sound.report _ _).bind fun _ => .pure fun _ h => h.elim

/-- **The parser of expressions is sound.** -/
theorem sound_expression (n : Nat) :
    Sound n inside (expression n) (Grammar.Expression .assignment) := by
  induction n with
  | zero => exact .failHere _
  | succ n ih => exact sound_assignment ih (Nat.le_succ n) (Nat.le_refl _)

/-! ## Statements -/

/-- The rules derive a statement from the words, with an `else` belonging to any `if`. -/
def IsStatement (inside : Bool) (words : List Token) : Prop :=
  ∃ isOpen tree, Grammar.Statement Grammar.anyIf (.statement isOpen) inside words tree

/-- The rules derive a declaration from the words. -/
def IsDeclaration (inside : Bool) (words : List Token) : Prop :=
  ∃ tree, Grammar.Statement Grammar.anyIf .declaration inside words tree

/-- The rules derive a sequence of declarations from the words. -/
def AreDeclarations (inside : Bool) (words : List Token) : Prop :=
  ∃ parts : List (List Token × Stmt),
    (∀ d ∈ parts, Grammar.Statement Grammar.anyIf .declaration inside d.1 d.2) ∧
      words = parts.flatMap Prod.fst

theorem AreDeclarations.nil : AreDeclarations inside [] :=
  ⟨[], fun _ h => absurd h List.not_mem_nil, rfl⟩

theorem AreDeclarations.cons {words words' : List Token} (h : IsDeclaration inside words)
    (h' : AreDeclarations inside words') : AreDeclarations inside (words ++ words') := by
  obtain ⟨tree, h⟩ := h
  obtain ⟨parts, hparts, rfl⟩ := h'
  exact ⟨(words, tree) :: parts, List.forall_mem_cons.mpr ⟨h, hparts⟩, rfl⟩

theorem sound_declarations {declaration : Parser (Option Stmt)}
    (h : Sound n inside declaration fun words _ => IsDeclaration inside words)
    (closed : State → Bool) (steps : Nat) :
    Sound n inside (declarations declaration closed steps) fun words _ =>
      AreDeclarations inside words := by
  induction steps with
  | zero => exact fun _ => .same .nil
  | succ steps ih =>
    intro s
    unfold declarations
    split
    · exact .same .nil
    · refine h.bind (fun kept => ih.bind fun others => .pure ?_) s
      intro words hothers words' hkept
      rw [List.append_nil]
      exact hothers.cons hkept

theorem sound_block {declaration : Parser (Option Stmt)}
    (h : Sound n inside declaration fun words _ => IsDeclaration inside words) (steps : Nat) :
    Sound n inside (block steps declaration) fun words _ =>
      ∃ body right, AreDeclarations inside body ∧ right.kind = .symbol .rightBrace ∧
        words = body ++ [right] :=
  (sound_declarations h _ steps).bind fun _ =>
    .expect_bind (fun right => .pure fun hright body hbody => ⟨body, right, hbody, hright, rfl⟩)
      (Nat.le_succ n)

theorem sound_parameter :
    Sound n inside (expect .identifier "parameter name") fun words token =>
      words = [token] ∧ token.kind = .identifier := by
  have h : Sound n inside (expect .identifier "parameter name" >>= pure) fun words token =>
      words = [token] ∧ token.kind = .identifier :=
    .expect_bind (fun token => .pure fun htoken => ⟨rfl, htoken⟩) (Nat.le_succ n)
  rwa [bind_pure] at h

theorem sound_funcDeclaration {declaration : Parser (Option Stmt)}
    (h : Sound n true declaration fun words _ => IsDeclaration true words) {steps start : Nat}
    (hsteps : n ≤ steps) {keyword : Token} (hkeyword : keyword.kind = .keyword .funcWord) :
    Sound n inside (funcDeclaration steps declaration start) fun words _ =>
      IsDeclaration inside (keyword :: words) := by
  refine .expect_bind (m := n) (fun name => ?_) (Nat.le_succ n)
  refine .expect_bind (m := n) (fun opening => ?_) (Nat.le_succ n)
  refine (sound_itemList sound_parameter hsteps).bind fun params => ?_
  refine .expect_bind (m := n) (fun closing => ?_) (Nat.le_succ n)
  refine .expect_bind (m := n) (fun left => ?_) (Nat.le_succ n)
  refine (sound_block h steps).insideFunction.bind fun body => .spanFrom_bind fun span => .pure ?_
  rintro _ ⟨_, right, ⟨parts, hparts, rfl⟩, hright, rfl⟩ hleft hclosing words
    ⟨hcount, items, rfl, hsep, hitems⟩ hopening hname
  have hfst : items.map Prod.fst = (items.map Prod.snd).map ([·]) := by
    rw [List.map_map]
    exact List.map_congr_left fun i hi => (hitems i hi).1
  have hparams : ∀ p ∈ items.map Prod.snd, p.kind = .identifier := by
    intro p hp
    obtain ⟨i, hi, rfl⟩ := List.mem_map.mp hp
    exact (hitems i hi).2
  rw [hfst] at hsep
  have hfunc : IsDeclaration inside _ := ⟨_, .funcDecl hkeyword hname hopening hparams hsep hcount
    hclosing hleft hparts hright⟩
  simpa using hfunc

section Parts

variable {k : Nat}

theorem sound_initialValue (hk : n ≤ k) :
    Sound n inside (initialValue (expression k)) fun words _ =>
      ∃ value, Grammar.InitialValue words value :=
  .acceptKind?_bind (.pure ⟨none, .none⟩)
    (fun _ => ((sound_expression k).mono hk).map some fun _ tree h hequals =>
      ⟨some tree, .some hequals h⟩)
    (Nat.le_succ n)

theorem sound_varDeclaration (hk : n ≤ k) {start : Nat} (keyword : Token) :
    Sound n inside (varDeclaration (expression k) start) fun words _ =>
      keyword.kind = .keyword .varWord → ∃ tree, Grammar.VarDecl (keyword :: words) tree := by
  refine .expect_bind (m := n) (fun name => ?_) (Nat.le_succ n)
  refine (sound_initialValue hk).bind fun _ => ?_
  refine .expect_bind (m := n) (fun semicolon => ?_) (Nat.le_succ n)
  refine .spanFrom_bind fun span => .pure ?_
  rintro hsemicolon words ⟨value, hvalue⟩ hname hkeyword
  exact ⟨_, .mk hkeyword hname hvalue hsemicolon⟩

theorem sound_exprStatement (hk : n ≤ k) :
    Sound n inside (exprStatement (expression k)) fun words _ =>
      ∃ tree, Grammar.ExprStmt words tree := by
  refine ((sound_expression k).mono hk).bind fun value => ?_
  refine .expect_bind (m := n) (fun semicolon => ?_) (Nat.le_succ n)
  refine .spanFrom_bind fun span => .pure ?_
  intro hsemicolon words hvalue
  exact ⟨_, .mk hvalue hsemicolon⟩

theorem sound_forInitial (hk : n ≤ k) :
    Sound n inside (forInitial (expression k)) fun words _ =>
      ∃ init, Grammar.ForInitial words init := by
  refine .acceptKind?_bind (m := n) ?_ (fun semicolon => .pure fun h => ⟨none, .none h⟩)
    (Nat.le_succ n)
  refine .acceptKind?_bind (m := n) ?_ (fun keyword => ?_) (Nat.le_succ n)
  · exact (sound_exprStatement hk).map some fun _ _ ⟨tree, h⟩ => ⟨some tree, .expr h⟩
  · refine (sound_varDeclaration hk keyword).map some fun _ _ h hkeyword => ?_
    obtain ⟨tree, htree⟩ := h hkeyword
    exact ⟨some tree, .var htree⟩

theorem sound_forCondition (hk : n ≤ k) :
    Sound n inside (forCondition (expression k)) fun words _ =>
      ∃ cond, Grammar.OptionalExpression words cond :=
  .nextIs_bind fun b => by
    cases b with
    | true => exact .here_bind fun _ => .pure ⟨none, .none⟩
    | false => exact ((sound_expression k).mono hk).imp fun _ tree h => ⟨some tree, .some h⟩

theorem sound_optional (hk : n ≤ k) {kind : Token.Kind} :
    Sound n inside (unlessNext kind (expression k)) fun words _ =>
      ∃ value, Grammar.OptionalExpression words value := by
  refine ((sound_expression k).mono hk).unlessNext.imp ?_
  rintro words _ (⟨rfl, -⟩ | ⟨tree, -, h⟩)
  · exact ⟨none, .none⟩
  · exact ⟨some tree, .some h⟩

/-- A condition in parentheses, after a keyword. -/
theorem sound_condition_bind (hk : n ≤ k) {what what' : String} {f : Expr → Parser β}
    {result : List Token → β → Prop}
    (hf : ∀ cond, Sound n inside (f cond) fun rest b => ∀ (opening closing : Token) words,
      opening.kind = .symbol .leftParen → Grammar.Expression .assignment words cond →
      closing.kind = .symbol .rightParen → result (opening :: words ++ closing :: rest) b) :
    Sound n inside (do
      let _ ← expect (.symbol .leftParen) what
      let cond ← expression k
      let _ ← expect (.symbol .rightParen) what'
      f cond) result := by
  refine .expect_bind (m := n) (fun opening => ?_) (Nat.le_succ n)
  refine ((sound_expression k).mono hk).bind fun cond => ?_
  refine .expect_bind (m := n) (fun closing => (hf cond).imp ?_) (Nat.le_succ n)
  intro rest b h hclosing words hcond hopening
  exact h opening closing words hopening hcond hclosing

end Parts

section Statements

-- The parsers for nested statements and declarations, which are only used after a token was read.
variable {k : Nat} {statement : Parser Stmt} {declaration : Parser (Option Stmt)} {keyword : Token}
  {start : Nat}

theorem sound_forStatement (hk : n ≤ k)
    (hs : Sound n inside statement fun words _ => IsStatement inside words)
    (hkeyword : keyword.kind = .keyword .forWord) :
    Sound n inside (forStatement (expression k) statement start) fun words _ =>
      IsStatement inside (keyword :: words) := by
  refine .expect_bind (m := n) (fun opening => ?_) (Nat.le_succ n)
  refine (sound_forInitial hk).bind fun _ => (sound_forCondition hk).bind fun _ => ?_
  refine .expect_bind (m := n) (fun semicolon => ?_) (Nat.le_succ n)
  refine (sound_optional hk).bind fun _ => ?_
  refine .expect_bind (m := n) (fun closing => ?_) (Nat.le_succ n)
  refine hs.bind fun _ => .spanFrom_bind fun span => .pure ?_
  rintro words ⟨isOpen, body, hbody⟩ hclosing stepWords ⟨step, hstep⟩ hsemicolon condWords
    ⟨cond, hcond⟩ initWords ⟨init, hinit⟩ hopening
  have hfor : IsStatement inside _ := ⟨isOpen, _, .forStmt hkeyword hopening hinit hcond hsemicolon
    hstep hclosing hbody⟩
  simpa using hfor

theorem sound_ifStatement (hk : n ≤ k)
    (hs : Sound n inside statement fun words _ => IsStatement inside words)
    (hkeyword : keyword.kind = .keyword .ifWord) :
    Sound n inside (ifStatement (expression k) statement start) fun words _ =>
      IsStatement inside (keyword :: words) := by
  refine sound_condition_bind hk fun cond => hs.bind fun _ => ?_
  refine .acceptKind?_bind (m := n) (.spanFrom_bind fun span => .pure ?_) (fun other => ?_)
    (Nat.le_succ n)
  · rintro words ⟨isOpen, yes, hyes⟩ opening closing condWords hopening hcond hclosing
    rw [List.append_nil]
    exact ⟨true, _, .ifThen hkeyword hopening hcond hclosing hyes⟩
  · refine hs.bind fun _ => .spanFrom_bind fun span => .pure ?_
    rintro words' ⟨isOpen', no, hno⟩ hother words ⟨isOpen, yes, hyes⟩ opening closing condWords
      hopening hcond hclosing
    have hif : IsStatement inside _ := ⟨isOpen', _, .ifElse hkeyword hopening hcond hclosing hyes
      trivial hother hno⟩
    simpa using hif

theorem sound_whileStatement (hk : n ≤ k)
    (hs : Sound n inside statement fun words _ => IsStatement inside words)
    (hkeyword : keyword.kind = .keyword .whileWord) :
    Sound n inside (whileStatement (expression k) statement start) fun words _ =>
      IsStatement inside (keyword :: words) := by
  refine sound_condition_bind hk fun cond => hs.bind fun _ => .spanFrom_bind fun span => .pure ?_
  rintro words ⟨isOpen, body, hbody⟩ opening closing condWords hopening hcond hclosing
  rw [List.append_nil]
  exact ⟨isOpen, _, .whileStmt hkeyword hopening hcond hclosing hbody⟩

theorem sound_printStatement (hk : n ≤ k) (hkeyword : keyword.kind = .keyword .printWord) :
    Sound n inside (printStatement (expression k) start) fun words _ =>
      IsStatement inside (keyword :: words) := by
  refine ((sound_expression k).mono hk).bind fun value => ?_
  refine .expect_bind (m := n) (fun semicolon => ?_) (Nat.le_succ n)
  refine .spanFrom_bind fun span => .pure ?_
  intro hsemicolon words hvalue
  exact ⟨false, _, .printStmt hkeyword hvalue hsemicolon⟩

/-- A `return` that is not reported has a function around it. -/
theorem sound_checkReturn {span : Span} :
    Sound n inside (checkReturn span) fun words _ => words = [] ∧ inside = true := by
  intro s
  unfold checkReturn
  split
  · exact (Sound.report _ span).imp (fun _ _ h => h.elim) s
  · refine ⟨.refl s, fun a s' hr _ _ hin => ?_⟩
    injection hr with _ hs
    subst hs
    exact ⟨[], rfl, rfl, hin (by omega)⟩

theorem sound_returnStatement (hk : n ≤ k) (hkeyword : keyword.kind = .keyword .returnWord)
    {span : Span} :
    Sound n inside (returnStatement (expression k) span) fun words _ =>
      IsStatement inside (keyword :: words) := by
  refine sound_checkReturn.bind fun _ => (sound_optional hk).bind fun _ => ?_
  refine .expect_bind (m := n) (fun semicolon => ?_) (Nat.le_succ n)
  refine .spanFrom_bind fun span => .pure ?_
  rintro hsemicolon words ⟨value, hvalue⟩ _ ⟨rfl, rfl⟩
  exact ⟨false, _, .returnStmt hkeyword hvalue hsemicolon⟩

theorem sound_blockStatement
    (hd : Sound n inside declaration fun words _ => IsDeclaration inside words) {steps : Nat}
    (hkeyword : keyword.kind = .symbol .leftBrace) :
    Sound n inside (blockStatement steps declaration start) fun words _ =>
      IsStatement inside (keyword :: words) := by
  refine (sound_block hd steps).bind fun _ => .spanFrom_bind fun span => .pure ?_
  rintro _ ⟨_, right, ⟨parts, hparts, rfl⟩, hright, rfl⟩
  rw [List.append_nil]
  exact ⟨false, _, .block hkeyword hparts hright⟩

theorem sound_statementOf (hk : n ≤ k)
    (hs : Sound m inside statement fun words _ => IsStatement inside words)
    (hd : Sound m inside declaration fun words _ => IsDeclaration inside words) {steps : Nat}
    (hm : m ≤ n) (hn : n ≤ m + 1) :
    Sound n inside (statementOf steps (expression k) statement declaration) fun words _ =>
      IsStatement inside words := by
  have hmk : m ≤ k := Nat.le_trans hm hk
  have hexpr : Sound n inside (exprStatement (expression k)) fun words _ =>
      IsStatement inside words :=
    (sound_exprStatement hk).imp fun _ _ ⟨tree, h⟩ => ⟨false, tree, .exprStmt h⟩
  intro s
  unfold statementOf
  split
  · exact hexpr s
  · rename_i token rest hrest
    split
    · exact .advance hrest (sound_forStatement hmk hs ‹_›) hn
    · exact .advance hrest (sound_ifStatement hmk hs ‹_›) hn
    · exact .advance hrest (sound_printStatement hmk ‹_›) hn
    · exact .advance hrest (sound_returnStatement hmk ‹_›) hn
    · exact .advance hrest (sound_whileStatement hmk hs ‹_›) hn
    · exact .advance hrest (sound_blockStatement hd ‹_›) hn
    · exact hexpr s

theorem sound_declarationOf (hk : n ≤ k)
    (hs : Sound m inside statement fun words _ => IsStatement inside words)
    (hd : ∀ inside, Sound m inside declaration fun words _ => IsDeclaration inside words)
    {steps : Nat} (hsteps : m ≤ steps) (hm : m ≤ n) (hn : n ≤ m + 1) :
    Sound n inside (declarationOf steps (expression k) statement declaration) fun words _ =>
      IsDeclaration inside words := by
  have hmk : m ≤ k := Nat.le_trans hm hk
  have hstmt : Sound n inside (statementOf steps (expression k) statement declaration)
      fun words _ => IsDeclaration inside words :=
    (sound_statementOf hk hs (hd inside) hm hn).imp fun _ _ ⟨_, tree, h⟩ => ⟨tree, .statement h⟩
  refine (Sound.recover fun s => ?_).imp fun words _ ⟨_, _, h⟩ => h
  split
  · exact hstmt s
  · rename_i token rest hrest
    split
    · exact .advance hrest (sound_funcDeclaration (hd true) hsteps ‹_›) hn
    · refine .advance hrest ((sound_varDeclaration hmk token).imp fun words _ h => ?_) hn
      obtain ⟨tree, htree⟩ := h ‹_›
      exact ⟨tree, .varDecl htree⟩
    · exact hstmt s

end Statements

/-- **The parsers of statements and declarations are sound.** -/
theorem sound_statement_declaration (n : Nat) :
    (∀ inside, Sound n inside (statement n) fun words _ => IsStatement inside words) ∧
      ∀ inside, Sound n inside (declaration n) fun words _ => IsDeclaration inside words := by
  induction n with
  | zero =>
    refine ⟨fun inside => .failHere _, fun inside s => ?_⟩
    exact ⟨.refl s, fun _ _ _ _ hn => absurd hn (Nat.not_lt_zero _)⟩
  | succ n ih =>
    have hle : n ≤ n + 1 := Nat.le_succ n
    exact ⟨fun inside => sound_statementOf (Nat.le_refl _) (ih.1 inside) (ih.2 inside) hle
        (Nat.le_refl _),
      fun inside => sound_declarationOf (Nat.le_refl _) (ih.1 inside) ih.2 hle hle (Nat.le_refl _)⟩

/-! ## Programs -/

/-- Declarations that are read without a fault go on to the end of the input, since each of them
has at least one token. -/
theorem rest_of_declarations {declaration : Parser (Option Stmt)}
    (h : Sound n inside declaration fun words _ => IsDeclaration inside words) (steps : Nat) :
    ∀ (s s' : State) (trees : List Stmt), s.rest.length < steps → s.rest.length < n →
      (0 < s.depth → inside = true) →
      declarations declaration (fun s => s.rest.isEmpty) steps s = .ok trees s' →
      s'.faults = s.faults → s'.rest = [] := by
  induction steps with
  | zero => exact fun s _ _ hlt => absurd hlt (Nat.not_lt_zero _)
  | succ steps ih =>
    intro s s'' trees hsteps hn hin hr hfaults
    unfold declarations at hr
    split at hr
    · injection hr with _ hs
      subst hs
      exact List.isEmpty_iff.mp ‹_›
    · rw [bind_apply] at hr
      have hs := h s
      cases hd : declaration s with
      | error fault s' => rw [hd] at hr; cases hr
      | ok kept s' =>
        rw [hd] at hr hs
        simp only [bind_apply] at hr
        have hs' := sound_declarations h (fun s => s.rest.isEmpty) steps s'
        cases hds : declarations declaration (fun s => s.rest.isEmpty) steps s' with
        | error fault t => rw [hds] at hr; cases hr
        | ok others t =>
          rw [hds] at hr hs'
          injection hr with _ hsame
          subst hsame
          obtain ⟨heq, heq'⟩ := Follows.faults_eq hs.follows hs'.follows hfaults
          obtain ⟨words, hwords, tree, htree⟩ := hs.derives kept s' rfl heq hn hin
          have hpos := htree.starts.length_pos
          have hlen : s.rest.length = words.length + s'.rest.length := by
            rw [hwords, List.length_append]
          exact ih s' t others (by omega) (by omega)
            (by rw [show s'.depth = s.depth from hs.follows.depth]; exact hin) hds heq'

/-- **The parser is sound.** A program that it reads without a fault is a word of the grammar. -/
theorem derives_program {s s' : State} {trees : Program} (hn : s.rest.length < n)
    (hdepth : s.depth = 0) (hr : program n s = .ok trees s') (hfaults : s'.faults = s.faults) :
    AreDeclarations false s.rest := by
  have h := (sound_statement_declaration n).2 false
  have hin : 0 < s.depth → false = true := by omega
  have hrest := rest_of_declarations h n s s' trees hn hn hin hr hfaults
  obtain ⟨words, hwords, hparts⟩ :=
    (sound_declarations h _ n s).derives trees s' hr hfaults hn hin
  rw [hwords, hrest, List.append_nil]
  exact hparts

end Parser

end BlockScript
