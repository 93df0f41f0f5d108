import BlockScript.Tree.Printer

/-!
# Nested lists and their texts

Programs are shown as nested lists of words. Here are such lists on their own, with their texts and
with a reader for the texts. The reader goes over a text once, one character after the other, and
keeps the lists that are still open, the innermost first. It ends a word at each parenthesis, space
and line feed, so it needs nothing of the words but that none of those is in them.

A word at the end of a text is not known to be over. So what is proved of a text is what the reader
has after the next character that ends a word (`Outline.Reader.endWord`).

## Main definitions

* `Outline`, `Outline.text` — nested lists of words and their texts
* `Outline.isWord`, `Outline.Legible` — the words that can be told apart, and lists of them
* `Outline.read` — the reader

## Main results

* `Outline.read_lines` — what is read from lines is what was written on them
-/

namespace BlockScript

/-- Nested lists of words. -/
inductive Outline where
  | word (text : String)
  | list (items : List Outline)

namespace Outline

/-- Induction on nested lists, with a hypothesis for each member of a list. -/
@[elab_as_elim] theorem ind {motive : Outline → Prop} (word : ∀ text, motive (.word text))
    (list : ∀ items, (∀ item ∈ items, motive item) → motive (.list items)) (o : Outline) :
    motive o :=
  @Outline.rec motive (fun items => ∀ item ∈ items, motive item) word list
    (fun _ h => absurd h List.not_mem_nil)
    (fun _ _ hhead htail => List.forall_mem_cons.mpr ⟨hhead, htail⟩) o

/-! ## Texts -/

mutual

/-- Nested lists as text. -/
def text : Outline → String
  | .word text => text
  | .list items => "(" ++ " ".intercalate (texts items) ++ ")"

/-- The texts of the members of a list. -/
def texts : List Outline → List String
  | [] => []
  | o :: os => o.text :: texts os

end

@[simp] theorem texts_eq (os : List Outline) : texts os = os.map text := by
  induction os with
  | nil => rfl
  | cons o os ih => rw [texts, ih, List.map_cons]

/-- Characters that stand between words. -/
def isBreak (c : Char) : Bool := c = '(' || c = ')' || c = ' ' || c = '\n'

/-- Words that can be told from what stands around them. -/
def isWord (text : String) : Bool := text ≠ "" && text.toList.all fun c => !isBreak c

theorem isWord_iff {text : String} :
    isWord text = true ↔ text ≠ "" ∧ ∀ c ∈ text.toList, isBreak c = false := by
  simp [isWord]

/-- All words are such that they can be told apart. -/
inductive Legible : Outline → Prop where
  | word {text : String} (h : isWord text = true) : Legible (.word text)
  | list {items : List Outline} (h : ∀ item ∈ items, Legible item) : Legible (.list items)

/-! ## Reading -/

/-- What was read so far: a part of a word, the members of the innermost list that is open, and
those of the lists around it. -/
structure Reader where
  word : List Char
  items : List Outline
  around : List (List Outline)

namespace Reader

/-- The word is over, if there is one. -/
def endWord (r : Reader) : Reader :=
  if r.word = [] then r else ⟨[], r.items ++ [.word (String.ofList r.word)], r.around⟩

/-- A list starts. -/
def startList (r : Reader) : Reader := ⟨[], [], r.items :: r.around⟩

/-- The innermost list is over. -/
def endList (r : Reader) : Reader :=
  match r.around with
  | [] => r
  | outer :: around => ⟨[], outer ++ [.list r.items], around⟩

/-- Reads one more character. -/
def step (r : Reader) (c : Char) : Reader :=
  if c = '(' then r.endWord.startList
  else if c = ')' then r.endWord.endList
  else if c = ' ' || c = '\n' then r.endWord
  else ⟨r.word ++ [c], r.items, r.around⟩

/-- Reads a text. -/
def run (r : Reader) (text : String) : Reader := text.toList.foldl step r

@[simp] theorem run_append (r : Reader) (s t : String) : r.run (s ++ t) = (r.run s).run t := by
  rw [run, String.toList_append, List.foldl_append]
  rfl

@[simp] theorem run_empty (r : Reader) : r.run "" = r := rfl

theorem run_space (r : Reader) : r.run " " = r.endWord := rfl

theorem run_lineFeed (r : Reader) : r.run "\n" = r.endWord := rfl

theorem run_close (r : Reader) : r.run ")" = r.endWord.endList := rfl

/-- A character that ends no word goes on with it. -/
theorem step_of_not_isBreak {c : Char} (h : isBreak c = false) (r : Reader) :
    r.step c = ⟨r.word ++ [c], r.items, r.around⟩ := by
  simp only [isBreak, Bool.or_eq_false_iff, decide_eq_false_iff_not] at h
  simp [step, h]

theorem run_of_not_isBreak {text : String} (h : ∀ c ∈ text.toList, isBreak c = false)
    (r : Reader) : r.run text = ⟨r.word ++ text.toList, r.items, r.around⟩ := by
  rw [run]
  generalize text.toList = cs at h ⊢
  induction cs generalizing r with
  | nil => simp
  | cons c cs ih =>
    obtain ⟨hc, hcs⟩ := List.forall_mem_cons.mp h
    rw [List.foldl_cons, step_of_not_isBreak hc, ih _ hcs, List.append_assoc,
      List.singleton_append]

end Reader

/-- The lists that a text is made of. -/
def read (text : String) : List Outline := ((Reader.mk [] [] []).run text).items

/-- The reader gets the lists back. -/
def ReadsBack (o : Outline) : Prop :=
  ∀ items around, ((Reader.mk [] items around).run o.text).endWord = ⟨[], items ++ [o], around⟩

theorem readsBack_word {text : String} (h : isWord text = true) : ReadsBack (.word text) := by
  intro items around
  obtain ⟨hne, hchars⟩ := isWord_iff.mp h
  have hcs : text.toList ≠ [] := by simpa using hne
  rw [Outline.text, Reader.run_of_not_isBreak hchars, List.nil_append, Reader.endWord, if_neg hcs,
    String.ofList_toList]

/-- After the members of a list, with spaces between them, the reader has all of them. -/
theorem endWord_run_intercalate {os : List Outline} (h : ∀ o ∈ os, o.ReadsBack)
    (items : List Outline) (around : List (List Outline)) :
    ((Reader.mk [] items around).run (" ".intercalate (os.map text))).endWord =
      ⟨[], items ++ os, around⟩ := by
  induction os generalizing items with
  | nil => simp [Reader.endWord]
  | cons o os ih =>
    obtain ⟨ho, hos⟩ := List.forall_mem_cons.mp h
    cases os with
    | nil => simpa using ho items around
    | cons o' os =>
      rw [List.map_cons, List.map_cons, String.intercalate_cons_cons, ← List.map_cons,
        Reader.run_append, Reader.run_append, Reader.run_space, ho, ih hos, List.append_assoc,
        List.singleton_append]

/-- **The text of nested lists can be read back.** -/
theorem Legible.readsBack {o : Outline} (h : o.Legible) : o.ReadsBack := by
  induction o using Outline.ind with
  | word text =>
    cases h with
    | word h => exact readsBack_word h
  | list os ih =>
    cases h with
    | list hos =>
      intro items around
      have hmembers := endWord_run_intercalate (fun o ho => ih o ho (hos o ho)) [] (items :: around)
      have hopen : (Reader.mk [] items around).run "(" = ⟨[], [], items :: around⟩ := rfl
      rw [text, texts_eq, Reader.run_append, Reader.run_append, hopen, Reader.run_close, hmembers]
      rfl

/-- **What is read from lines is what was written on them.** -/
theorem read_lines {os : List Outline} (h : ∀ o ∈ os, o.Legible) :
    read (String.join (os.map fun o => o.text ++ "\n")) = os := by
  have hrun (items : List Outline) :
      (Reader.mk [] items []).run (String.join (os.map fun o => o.text ++ "\n")) =
        ⟨[], items ++ os, []⟩ := by
    induction os generalizing items with
    | nil => simp
    | cons o os ih =>
      obtain ⟨ho, hos⟩ := List.forall_mem_cons.mp h
      rw [List.map_cons, String.join_cons, Reader.run_append, Reader.run_append,
        Reader.run_lineFeed, ho.readsBack, ih hos, List.append_assoc, List.singleton_append]
  rw [read, hrun, List.nil_append]

end Outline

end BlockScript
