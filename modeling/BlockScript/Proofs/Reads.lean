import BlockScript.Parser.Statement

/-!
# What a parser does with words it can read

`Reads` says of a parser that it takes certain words off its input and gives a certain value. It has
two halves, one for each way in which the words can stand in the input. If they stand there *whole*,
the parser reads them, records nothing and leaves what comes after. If the input *breaks off* inside
them, the parser comes to the end of the input, and everything it complains about is the end.

The second half is what makes an unfinished program recognisable: no fault of it lies before its
end. It costs little beside the first half, since the two follow the same steps, and one rule for
sequencing, `Reads.bind`, serves both.

## Fuel

The number in `Reads` bounds the words that are there to be read, all of them in the first half and
the part before the break in the second. So the bound that a parser needs is always one on its
own input, never on what the input might have been continued to.

## Main definitions

* `Parser.State.after` — the state after words were read
* `Parser.BreaksOff` — a result that complains about the end of the input only
* `Parser.Reads` — a parser reads words and gives a value
* `Parser.AtEnd` — a parser complains about nothing else when nothing is left

## Main results

* `Parser.Reads.bind` — sequencing
-/

namespace BlockScript

namespace Parser

variable {α β : Type}

/-! ## States along the way -/

/-- Where the last of the words stops, or `stop` if there are none. -/
def stopAfter (stop : Nat) (words : List Token) : Nat :=
  words.foldl (fun _ token => token.span.stop) stop

@[simp] theorem stopAfter_nil (stop : Nat) : stopAfter stop [] = stop := rfl

@[simp] theorem stopAfter_cons (stop : Nat) (token : Token) (words : List Token) :
    stopAfter stop (token :: words) = stopAfter token.span.stop words := rfl

@[simp] theorem stopAfter_append (stop : Nat) (words words' : List Token) :
    stopAfter stop (words ++ words') = stopAfter (stopAfter stop words) words' :=
  List.foldl_append

/-- The state after the words were read, with `rest` still to be read. -/
def State.after (s : State) (words rest : List Token) : State :=
  { s with rest, lastStop := stopAfter s.lastStop words }

namespace State

@[simp] theorem after_rest (s : State) (words rest : List Token) :
    (s.after words rest).rest = rest := rfl

@[simp] theorem after_finish (s : State) (words rest : List Token) :
    (s.after words rest).finish = s.finish := rfl

@[simp] theorem after_lastStop (s : State) (words rest : List Token) :
    (s.after words rest).lastStop = stopAfter s.lastStop words := rfl

@[simp] theorem after_depth (s : State) (words rest : List Token) :
    (s.after words rest).depth = s.depth := rfl

@[simp] theorem after_faults (s : State) (words rest : List Token) :
    (s.after words rest).faults = s.faults := rfl

@[simp] theorem after_after (s : State) (words rest words' rest' : List Token) :
    (s.after words rest).after words' rest' = s.after (words ++ words') rest' := by
  simp [after]

theorem after_nil {s : State} {rest : List Token} (h : s.rest = rest) : s.after [] rest = s := by
  subst h
  rfl

theorem advance_of_rest {s : State} {token : Token} {rest : List Token}
    (h : s.rest = token :: rest) : s.advance = s.after [token] rest := by
  rw [advance, h]
  rfl

theorem here_of_end {s : State} (h : s.rest = []) : s.here = s.finish := by
  rw [here, h]

theorem synchronize_of_end {s : State} (h : s.rest = []) : s.synchronize = s := by
  rw [synchronize, h]

theorem nextIs_of_end {s : State} (h : s.rest = []) (kind : Token.Kind) :
    s.nextIs kind = false := by
  rw [nextIs, h]

theorem nextIs_of_rest {s : State} {token : Token} {rest : List Token}
    (h : s.rest = token :: rest) (kind : Token.Kind) :
    s.nextIs kind = decide (token.kind = kind) := by
  rw [nextIs, h]

end State

/-- What is next, if anything is, is of a kind that `ok` allows. -/
def Clear (ok : Token.Kind → Prop) (rest : List Token) : Prop := ∀ token ∈ rest.head?, ok token.kind

@[simp] theorem clear_nil (ok : Token.Kind → Prop) : Clear ok [] := nofun

@[simp] theorem clear_cons (ok : Token.Kind → Prop) (token : Token) (rest : List Token) :
    Clear ok (token :: rest) ↔ ok token.kind := by
  simp [Clear]

theorem Clear.imp {ok ok' : Token.Kind → Prop} {rest : List Token} (h : Clear ok rest)
    (himp : ∀ kind, ok kind → ok' kind) : Clear ok' rest := fun token ht => himp _ (h token ht)

theorem Clear.of_append {ok : Token.Kind → Prop} {words words' : List Token}
    (h : Clear ok (words ++ words')) : Clear ok words := by
  cases words with
  | nil => exact clear_nil ok
  | cons token words => simpa using h

/-! ## Results that complain about the end only -/

/-- `s'` comes after `s`, at the end of the input, and what was found in between is about the
end. -/
structure EndsAt (s s' : State) : Prop where
  rest : s'.rest = []
  finish : s'.finish = s.finish
  depth : s'.depth = s.depth
  faults : ∃ new, s'.faults = s.faults ++ new ∧ ∀ fault ∈ new, fault.span = s.finish

theorem EndsAt.refl {s : State} (h : s.rest = []) : EndsAt s s :=
  ⟨h, rfl, rfl, [], by simp, nofun⟩

theorem EndsAt.trans {s s' s'' : State} (h : EndsAt s s') (h' : EndsAt s' s'') : EndsAt s s'' := by
  obtain ⟨new, hnew, hspan⟩ := h.faults
  obtain ⟨new', hnew', hspan'⟩ := h'.faults
  refine ⟨h'.rest, h'.finish.trans h.finish, h'.depth.trans h.depth, new ++ new', ?_, ?_⟩
  · rw [hnew', hnew, List.append_assoc]
  · intro fault hfault
    rcases List.mem_append.mp hfault with hf | hf
    · exact hspan fault hf
    · rw [hspan' fault hf, h.finish]

/-- Words that were read on the way to the end do not matter. -/
theorem EndsAt.of_after {s s' : State} {words rest : List Token}
    (h : EndsAt (s.after words rest) s') : EndsAt s s' :=
  ⟨h.rest, h.finish, h.depth, h.faults⟩

/-- A fault at the end may be recorded. -/
theorem EndsAt.record {s s' : State} (h : EndsAt s s') {fault : Located}
    (hfault : fault.span = s.finish) : EndsAt s (s'.record fault) := by
  obtain ⟨new, hnew, hspan⟩ := h.faults
  refine ⟨h.rest, h.finish, h.depth, new ++ [fault], ?_, ?_⟩
  · rw [State.record, hnew, List.append_assoc]
  · intro f hf
    rcases List.mem_append.mp hf with hf | hf
    · exact hspan f hf
    · rw [List.mem_singleton.mp hf, hfault]

/-- The result of a parser that came to the end of the input and complains about nothing else. -/
def BreaksOff (s : State) : EStateM.Result Located State α → Prop
  | .ok _ s' => EndsAt s s'
  | .error fault s' => fault.span = s.finish ∧ EndsAt s s'

/-- When nothing is left to read, the parser complains about the end only. -/
def AtEnd (p : Parser α) : Prop := ∀ s : State, s.rest = [] → BreaksOff s (p s)

theorem bind_apply (p : Parser α) (f : α → Parser β) (s : State) :
    (p >>= f) s =
      match p s with
      | .ok a s' => f a s'
      | .error fault s' => .error fault s' := by
  change EStateM.bind p f s = _
  rw [EStateM.bind]
  cases p s <;> rfl

theorem map_eq_bind (g : α → β) (p : Parser α) : g <$> p = p >>= fun a => pure (g a) := by
  funext s
  change EStateM.map g p s = EStateM.bind p (fun a => EStateM.pure (g a)) s
  simp only [EStateM.map, EStateM.bind]
  cases p s <;> rfl

theorem BreaksOff.bind {s : State} {p : Parser α} {f : α → Parser β} (h : BreaksOff s (p s))
    (hf : ∀ a, AtEnd (f a)) : BreaksOff s ((p >>= f) s) := by
  rw [bind_apply]
  cases hp : p s with
  | error fault s' => rw [hp] at h; exact h
  | ok a s' =>
    rw [hp] at h
    have ha : BreaksOff s' (f a s') := hf a s' h.rest
    change BreaksOff s (f a s')
    cases hfa : f a s' with
    | ok b s'' => rw [hfa] at ha; exact EndsAt.trans h ha
    | error fault s'' =>
      rw [hfa] at ha
      exact ⟨ha.1.trans h.finish, EndsAt.trans h ha.2⟩

theorem BreaksOff.of_after {s : State} {words rest : List Token}
    {r : EStateM.Result Located State α} (h : BreaksOff (s.after words rest) r) :
    BreaksOff s r := by
  cases r with
  | ok a s' => exact EndsAt.of_after h
  | error fault s' => exact ⟨h.1, h.2.of_after⟩

namespace AtEnd

theorem pure (a : α) : AtEnd (pure a : Parser α) := fun _ h => EndsAt.refl h

theorem bind {p : Parser α} {f : α → Parser β} (hp : AtEnd p) (hf : ∀ a, AtEnd (f a)) :
    AtEnd (p >>= f) := fun s h => (hp s h).bind hf

theorem map {p : Parser α} (hp : AtEnd p) (g : α → β) : AtEnd (g <$> p) := by
  rw [map_eq_bind]
  exact hp.bind fun a => .pure (g a)

theorem failHere (fault : Fault) : AtEnd (failHere fault : Parser α) := fun _ h =>
  ⟨State.here_of_end h, .refl h⟩

theorem expect {kind : Token.Kind} {what : String} : AtEnd (Parser.expect kind what) := by
  intro s h
  rw [Parser.expect, h]
  exact failHere (.expected what) s h

/-- A parser that breaks off at the end never gets to what comes after it. -/
theorem expect_bind {kind : Token.Kind} {what : String} {f : Token → Parser β} :
    AtEnd (Parser.expect kind what >>= f) := by
  intro s h
  rw [bind_apply, Parser.expect, h]
  exact failHere (.expected what) s h

theorem acceptKind?_bind {kind : Token.Kind} {f : Option Token → Parser β} (hf : AtEnd (f none)) :
    AtEnd (acceptKind? kind >>= f) := by
  intro s h
  rw [bind_apply, acceptKind?, h]
  exact hf s h

theorem accept?_bind {select : Token.Kind → Option α} {f : Option (α × Token) → Parser β}
    (hf : AtEnd (f none)) : AtEnd (accept? select >>= f) := by
  intro s h
  rw [bind_apply, accept?, h]
  exact hf s h

theorem nextIs_bind {kind : Token.Kind} {f : Bool → Parser β} (hf : AtEnd (f false)) :
    AtEnd (nextIs kind >>= f) := by
  intro s h
  rw [bind_apply, nextIs, State.nextIs_of_end h]
  exact hf s h

theorem spanFrom_bind {start : Nat} {f : Span → Parser β} (hf : ∀ span, AtEnd (f span)) :
    AtEnd (spanFrom start >>= f) := fun s h => hf ⟨start, s.lastStop⟩ s h

theorem unlessNext {p : Parser α} (hp : AtEnd p) (kind : Token.Kind) :
    AtEnd (unlessNext kind p) := nextIs_bind (hp.map some)

end AtEnd

/-! ## Reading words -/

/-- The parser reads the words and gives `a`, if the input starts with fewer than `n` words of
them. What comes after the words is of a kind that `ok` allows, `inside` tells whether a function
must be around them, and `stop` is where the words before them stop. -/
structure Reads (n : Nat) (p : Parser α) (ok : Token.Kind → Prop) (inside : Bool) (stop : Nat)
    (words : List Token) (a : α) : Prop where
  whole : ∀ (s : State) (rest : List Token), words.length < n → s.rest = words ++ rest →
    s.lastStop = stop → (inside = true → 0 < s.depth) → Clear ok rest →
    p s = .ok a (s.after words rest)
  broken : ∀ (s : State) (more : List Token), s.rest.length < n → words = s.rest ++ more →
    more ≠ [] → s.lastStop = stop → (inside = true → 0 < s.depth) → BreaksOff s (p s)

/-- Where an input that breaks off inside `words ++ words'` breaks off: inside the first words, or
after all of them. -/
theorem append_eq_append_cases {words words' rest more : List Token}
    (h : words ++ words' = rest ++ more) :
    (∃ u, rest = words ++ u ∧ words' = u ++ more) ∨ ∃ u, words = rest ++ u ∧ u ≠ [] := by
  rcases List.append_eq_append_iff.mp h with h | ⟨u, hu, hu'⟩
  · exact .inl h
  · by_cases hnil : u = []
    · subst hnil
      exact .inl ⟨[], by simpa using hu.symm, by simpa using hu'.symm⟩
    · exact .inr ⟨u, hu, hnil⟩

namespace Reads

variable {n m : Nat} {p : Parser α} {f : α → Parser β} {ok ok' : Token.Kind → Prop}
  {inside : Bool} {stop : Nat} {words words' : List Token} {a : α} {b : β}

theorem imp (h : Reads n p ok inside stop words a) (hok : ∀ kind, ok' kind → ok kind) :
    Reads n p ok' inside stop words a :=
  ⟨fun s rest hn hs hstop hin hrest => h.whole s rest hn hs hstop hin (hrest.imp hok), h.broken⟩

theorem mono (h : Reads n p ok inside stop words a) (hm : m ≤ n) :
    Reads m p ok inside stop words a :=
  ⟨fun s rest hn => h.whole s rest (Nat.lt_of_lt_of_le hn hm),
    fun s more hn => h.broken s more (Nat.lt_of_lt_of_le hn hm)⟩

/-- A parser that reads nothing cannot be broken off. -/
theorem of_nil (h : ∀ (s : State), s.lastStop = stop → (inside = true → 0 < s.depth) →
    Clear ok s.rest → p s = .ok a s) : Reads n p ok inside stop [] a where
  whole s rest _ hs hstop hin hrest := by
    have hs : s.rest = rest := by simpa using hs
    rw [State.after_nil hs]
    exact h s hstop hin (hs ▸ hrest)
  broken s more _ hwords hmore _ _ := absurd (List.append_eq_nil_iff.mp hwords.symm).2 hmore

/-- **Sequencing.** The second parser's words follow the first one's. If the input breaks off, it
does so either inside the first words, and then the second parser starts at the end, or inside
the second words. -/
theorem bind (hp : Reads n p ok inside stop words a)
    (hf : Reads m (f a) ok' inside (stopAfter stop words) words' b)
    (hnext : ∀ rest, Clear ok' rest → Clear ok (words' ++ rest))
    (hend : words ≠ [] → ∀ a, AtEnd (f a)) (hm : n ≤ m + words.length) :
    Reads n (p >>= f) ok' inside stop (words ++ words') b where
  whole s rest hn hs hstop hin hrest := by
    rw [List.length_append] at hn
    rw [List.append_assoc] at hs
    have hread := hp.whole s (words' ++ rest) (by omega) hs hstop hin (hnext rest hrest)
    rw [bind_apply, hread]
    change f a (s.after words (words' ++ rest)) = _
    rw [hf.whole (s.after words (words' ++ rest)) rest (by omega) rfl (by simp [hstop]) hin hrest,
      State.after_after]
  broken s more hn hwords hmore hstop hin := by
    rcases append_eq_append_cases hwords with ⟨u, hu, hu'⟩ | ⟨u, hu, hne⟩
    · have hclear : Clear ok u := by
        have := hnext [] (clear_nil ok')
        rw [List.append_nil, hu'] at this
        exact this.of_append
      have hlen : words.length + u.length < n := by rw [hu, List.length_append] at hn; exact hn
      rw [bind_apply, hp.whole s u (by omega) hu hstop hin hclear]
      exact (hf.broken (s.after words u) more (by simp; omega) hu' hmore (by simp [hstop])
        hin).of_after
    · have hwords : words ≠ [] := fun h => hne (List.append_eq_nil_iff.mp (hu.symm.trans h)).2
      exact (hp.broken s u hn hu hne hstop hin).bind (hend hwords)

/-- Fewer than no words are never there. -/
theorem zero : Reads 0 p ok inside stop words a :=
  ⟨fun _ _ hn => absurd hn (Nat.not_lt_zero _), fun _ _ hn => absurd hn (Nat.not_lt_zero _)⟩

theorem of_succ {p : Nat → Parser α}
    (h : ∀ n stop, Reads (n + 1) (p (n + 1)) ok inside stop words a) :
    ∀ n stop, Reads n (p n) ok inside stop words a
  | 0, _ => zero
  | n + 1, stop => h n stop

protected theorem pure (a : α) : Reads n (pure a : Parser α) ok inside stop [] a :=
  of_nil fun _ _ _ _ => rfl

/-- Sequencing after a parser that reads nothing. -/
theorem nil_bind (hp : Reads n p ok inside stop [] a) (hf : Reads n (f a) ok' inside stop words b)
    (hnext : ∀ rest, Clear ok' rest → Clear ok (words ++ rest)) :
    Reads n (p >>= f) ok' inside stop words b :=
  hp.bind hf hnext (fun h => absurd rfl h) (Nat.le_add_right n 0)

/-- Sequencing before a parser that reads nothing. -/
theorem bind_nil (hp : Reads n p ok inside stop words a)
    (hf : Reads n (f a) ok' inside (stopAfter stop words) [] b) (hnext : ∀ kind, ok' kind → ok kind)
    (hend : ∀ a, AtEnd (f a)) : Reads n (p >>= f) ok' inside stop words b := by
  have h := hp.bind hf (fun rest hrest => hrest.imp hnext) (fun _ => hend) (Nat.le_add_right n _)
  rwa [List.append_nil] at h

theorem map (hp : Reads n p ok inside stop words a) (g : α → β) :
    Reads n (g <$> p) ok inside stop words (g a) := by
  rw [map_eq_bind]
  exact hp.bind_nil (.pure (g a)) (fun _ h => h) fun a => .pure (g a)

/-- A parser that acts on the first word as another one does. -/
theorem head {q : Parser α} {token : Token}
    (hpq : ∀ (s : State) rest, s.rest = token :: rest → p s = q s) (hend : AtEnd p)
    (hq : Reads n q ok inside stop (token :: words) a) :
    Reads n p ok inside stop (token :: words) a where
  whole s rest hn hs := by
    rw [hpq s (words ++ rest) hs]
    exact hq.whole s rest hn hs
  broken s more hn hwords := by
    cases hs : s.rest with
    | nil => exact fun _ _ _ => hend s hs
    | cons token' rest =>
      have htoken : token' = token := by rw [hs] at hwords; exact (List.cons.inj hwords).1.symm
      rw [hpq s rest (by rw [hs, htoken])]
      exact hq.broken s more hn hwords

/-- A parser that reads the first word and goes on as another one. -/
theorem advance {q : Parser α} {token : Token}
    (hpq : ∀ (s : State) rest, s.rest = token :: rest → p s = q s.advance) (hend : AtEnd p)
    (hq : Reads m q ok inside token.span.stop words a) (hm : n ≤ m + 1) :
    Reads n p ok inside stop (token :: words) a where
  whole s rest hn hs hstop hin hrest := by
    have hn : words.length + 1 < n := hn
    have hs : s.rest = token :: (words ++ rest) := hs
    rw [hpq s (words ++ rest) hs, State.advance_of_rest hs,
      hq.whole (s.after [token] (words ++ rest)) rest (by omega) rfl rfl hin hrest,
      State.after_after]
    rfl
  broken s more hn hwords hmore hstop hin := by
    cases hs : s.rest with
    | nil => exact hend s hs
    | cons token' rest =>
      rw [hs] at hwords hn
      obtain ⟨rfl, hrest⟩ := List.cons.inj hwords
      have hn : rest.length + 1 < n := hn
      rw [hpq s rest hs, State.advance_of_rest hs]
      exact (hq.broken (s.after [token] rest) more (by simp; omega) hrest hmore rfl hin).of_after

/-! ### Single tokens -/

theorem expect {kind : Token.Kind} {what : String} {token : Token} (htoken : token.kind = kind) :
    Reads n (Parser.expect kind what) ok inside stop [token] token := by
  refine advance (fun s rest hs => ?_) .expect (.pure token) (Nat.le_succ n)
  rw [Parser.expect, hs]
  simp [htoken]
  rfl

theorem expect_bind {kind : Token.Kind} {what : String} {f : Token → Parser β} {token : Token}
    (htoken : token.kind = kind) (hf : Reads m (f token) ok inside token.span.stop words b)
    (hm : n ≤ m + 1) :
    Reads n (Parser.expect kind what >>= f) ok inside stop (token :: words) b := by
  refine advance (fun s rest hs => ?_) .expect_bind hf hm
  rw [bind_apply, Parser.expect, hs]
  simp [htoken]

theorem acceptKind?_bind {kind : Token.Kind} {f : Option Token → Parser β} {token : Token}
    (htoken : token.kind = kind) (hf : Reads m (f (some token)) ok inside token.span.stop words b)
    (hend : AtEnd (f none)) (hm : n ≤ m + 1) :
    Reads n (acceptKind? kind >>= f) ok inside stop (token :: words) b := by
  refine advance (fun s rest hs => ?_) (.acceptKind?_bind hend) hf hm
  rw [bind_apply, acceptKind?, hs]
  simp [htoken]

theorem accept?_bind {γ : Type} {select : Token.Kind → Option γ} {f : Option (γ × Token) → Parser β}
    {token : Token} {c : γ} (htoken : select token.kind = some c)
    (hf : Reads m (f (some (c, token))) ok inside token.span.stop words b) (hend : AtEnd (f none))
    (hm : n ≤ m + 1) : Reads n (accept? select >>= f) ok inside stop (token :: words) b := by
  refine advance (fun s rest hs => ?_) (.accept?_bind hend) hf hm
  rw [bind_apply, accept?, hs]
  simp [htoken]

/-- A token of another kind is left alone. -/
theorem acceptKind?_none {kind : Token.Kind} :
    Reads n (acceptKind? kind) (· ≠ kind) inside stop [] none := by
  refine of_nil fun s _ _ hrest => ?_
  rw [acceptKind?]
  cases hs : s.rest with
  | nil => rfl
  | cons token rest =>
    rw [hs, clear_cons] at hrest
    simp [hrest]

theorem acceptKind?_skip {kind : Token.Kind} {f : Option Token → Parser β} {token : Token}
    (htoken : token.kind ≠ kind) (hf : Reads n (f none) ok inside stop (token :: words) b) :
    Reads n (acceptKind? kind >>= f) ok inside stop (token :: words) b :=
  acceptKind?_none.nil_bind hf fun _ _ => (clear_cons ..).mpr htoken

/-- A token that is not selected is left alone. -/
theorem accept?_none {select : Token.Kind → Option α} :
    Reads n (accept? select) (select · = none) inside stop [] none := by
  refine of_nil fun s _ _ hrest => ?_
  rw [accept?]
  cases hs : s.rest with
  | nil => rfl
  | cons token rest =>
    rw [hs, clear_cons] at hrest
    simp [hrest]

theorem spanFrom_bind {start : Nat} {f : Span → Parser β}
    (hf : Reads n (f ⟨start, stop⟩) ok inside stop words b) :
    Reads n (spanFrom start >>= f) ok inside stop words b := by
  have hspan : Reads n (spanFrom start) (fun _ => True) inside stop [] ⟨start, stop⟩ :=
    of_nil fun s hstop _ _ => by rw [spanFrom, hstop]
  exact hspan.nil_bind hf fun _ _ _ _ => trivial

/-! ### Parts that may be missing -/

/-- A part is missing where the token stands that comes after it. -/
theorem unlessNext_skip {kind : Token.Kind} {f : Option α → Parser β} {token : Token}
    (hp : AtEnd p) (htoken : token.kind = kind)
    (hf : Reads n (f none) ok inside stop (token :: words) b) (hend : ∀ v, AtEnd (f v)) :
    Reads n (unlessNext kind p >>= f) ok inside stop (token :: words) b := by
  refine head (fun s rest hs => ?_) ((hp.unlessNext kind).bind hend) hf
  have hnext : s.nextIs kind = true := by simp [State.nextIs_of_rest hs, htoken]
  have hskip : unlessNext kind p s = .ok none s := by
    rw [unlessNext, bind_apply, nextIs, hnext]
    rfl
  rw [bind_apply, hskip]

theorem unlessNext_read {kind : Token.Kind} {token : Token} (hp : AtEnd p)
    (htoken : token.kind ≠ kind) (h : Reads n p ok inside stop (token :: words) a) :
    Reads n (unlessNext kind p) ok inside stop (token :: words) (some a) := by
  refine head (q := some <$> p) (fun s rest hs => ?_) (hp.unlessNext kind) (h.map some)
  have hnext : s.nextIs kind = false := by simp [State.nextIs_of_rest hs, htoken]
  rw [unlessNext, bind_apply, nextIs, hnext]
  rfl

/-! ### Functions and recovery -/

theorem insideFunction (h : Reads n p ok true stop words a) :
    Reads n (insideFunction p) ok inside stop words a where
  whole s rest hn hs hstop hin hrest := by
    rw [Parser.insideFunction,
      h.whole { s with depth := s.depth + 1 } rest hn hs hstop (fun _ => Nat.succ_pos _) hrest]
    rfl
  broken s more hn hwords hmore hstop hin := by
    have hs := h.broken { s with depth := s.depth + 1 } more hn hwords hmore hstop
      fun _ => Nat.succ_pos _
    rw [Parser.insideFunction]
    cases hr : p { s with depth := s.depth + 1 } with
    | ok a s' =>
      rw [hr] at hs
      exact ⟨hs.rest, hs.finish, rfl, hs.faults⟩
    | error fault s' =>
      rw [hr] at hs
      exact ⟨hs.1, hs.2.rest, hs.2.finish, rfl, hs.2.faults⟩

end Reads

theorem BreaksOff.recover {p : Parser α} {s : State} (h : BreaksOff s (p s)) :
    BreaksOff s (recover p s) := by
  rw [Parser.recover]
  cases hr : p s with
  | ok a s' => rw [hr] at h; exact h
  | error fault s' =>
    rw [hr] at h
    have hend : EndsAt s (s'.record fault) := h.2.record h.1
    change EndsAt s (s'.record fault).synchronize
    rw [State.synchronize_of_end hend.rest]
    exact hend

theorem Reads.recover {n : Nat} {p : Parser α} {ok : Token.Kind → Prop} {inside : Bool} {stop : Nat}
    {words : List Token} {a : α} (h : Reads n p ok inside stop words a) :
    Reads n (recover p) ok inside stop words (some a) where
  whole s rest hn hs hstop hin hrest := by
    rw [Parser.recover, h.whole s rest hn hs hstop hin hrest]
  broken s more hn hwords hmore hstop hin := (h.broken s more hn hwords hmore hstop hin).recover

end Parser

end BlockScript
