import Kennel.Text.Space

/-!
# Words and the white space around them

A `Layout` of words is a text with the words in their order, white space between any two of them
and perhaps more at the two ends. Its words are these words again (`words_of_layout`).
-/

namespace Kennel.Text

/-- White space only. -/
def Blank (s : String) : Prop := ∀ c ∈ s.toList, isSpace c = true

/-- At least one character, and no white space. -/
def IsWord (w : String) : Prop := w ≠ "" ∧ ∀ c ∈ w.toList, isSpace c = false

instance (s : String) : Decidable (Blank s) :=
  decidable_of_iff (s.toList.all isSpace) List.all_eq_true

instance (w : String) : Decidable (IsWord w) :=
  decidable_of_iff (w ≠ "" ∧ w.toList.all fun c => !isSpace c) (by simp [IsWord])

/-- Words with white space between any two of them. -/
inductive Joined : List String → String → Prop
  | nil : Joined [] ""
  | single (w : String) : Joined [w] w
  | cons {w gap v text : String} {ws : List String} : Blank gap → gap ≠ "" →
      Joined (v :: ws) text → Joined (w :: v :: ws) (w ++ gap ++ text)

/-- Words with white space between any two of them and any white space at the two ends. -/
def Layout (ws : List String) (text : String) : Prop :=
  ∃ lead body trail, Blank lead ∧ Joined ws body ∧ Blank trail ∧ text = lead ++ body ++ trail

/-! ## Cutting a text into words -/

theorem addWord_nil (rest : List String) : addWord [] rest = rest := rfl

/-- The characters of a word wait until white space or the end of the text comes. -/
theorem wordsFrom_append_word {cs : List Char} (hc : ∀ c ∈ cs, isSpace c = false)
    (pending rest : List Char) :
    wordsFrom pending (cs ++ rest) = wordsFrom (cs.reverse ++ pending) rest := by
  induction cs generalizing pending with
  | nil => rfl
  | cons c cs ih =>
    rw [List.forall_mem_cons] at hc
    simp only [List.cons_append, wordsFrom, hc.1, ih hc.2, List.reverse_cons, List.append_assoc]
    rfl

/-- White space ends the word before it and adds none. -/
theorem wordsFrom_append_blank {cs : List Char} (hc : ∀ c ∈ cs, isSpace c = true) (hne : cs ≠ [])
    (pending rest : List Char) :
    wordsFrom pending (cs ++ rest) = addWord pending (wordsFrom [] rest) := by
  induction cs generalizing pending with
  | nil => exact absurd rfl hne
  | cons c cs ih =>
    rw [List.forall_mem_cons] at hc
    simp only [List.cons_append, wordsFrom, hc.1, if_true]
    cases cs with
    | nil => rfl
    | cons d cs => rw [ih hc.2 (List.cons_ne_nil d cs), addWord_nil]

theorem wordsFrom_lead {lead : String} (h : Blank lead) (rest : List Char) :
    wordsFrom [] (lead.toList ++ rest) = wordsFrom [] rest := by
  by_cases hne : lead.toList = []
  · rw [hne, List.nil_append]
  · rw [wordsFrom_append_blank h hne, addWord_nil]

theorem wordsFrom_trail {trail : String} (h : Blank trail) (pending : List Char) :
    wordsFrom pending trail.toList = addWord pending [] := by
  by_cases hne : trail.toList = []
  · rw [hne]
    rfl
  · have hw := wordsFrom_append_blank h hne pending []
    rwa [List.append_nil] at hw

theorem addWord_word {w : String} (hw : IsWord w) (rest : List String) :
    addWord (w.toList.reverse ++ []) rest = w :: rest := by
  have hne : w.toList ≠ [] := fun h => hw.1 (String.toList_eq_nil_iff.mp h)
  simp [addWord, hne]

theorem wordsFrom_joined {ws : List String} {body trail : String} (h : Joined ws body)
    (hw : ∀ w ∈ ws, IsWord w) (ht : Blank trail) :
    wordsFrom [] (body.toList ++ trail.toList) = ws := by
  induction h with
  | nil => exact wordsFrom_trail ht []
  | single w =>
    have hw := hw w List.mem_cons_self
    rw [wordsFrom_append_word hw.2, wordsFrom_trail ht, addWord_word hw]
  | @cons w gap v text ws hgap hne _ ih =>
    rw [List.forall_mem_cons] at hw
    have hgap' : gap.toList ≠ [] := fun h => hne (String.toList_eq_nil_iff.mp h)
    simp only [String.toList_append, List.append_assoc]
    rw [wordsFrom_append_word hw.1.2, wordsFrom_append_blank hgap hgap', addWord_word hw.1,
      ih hw.2]

/-- The words of a layout are the words that were laid out. -/
theorem words_of_layout {ws : List String} {text : String} (hw : ∀ w ∈ ws, IsWord w)
    (h : Layout ws text) : words text = ws := by
  obtain ⟨lead, body, trail, hl, hj, ht, rfl⟩ := h
  rw [words, String.toList_append, String.toList_append, List.append_assoc, wordsFrom_lead hl,
    wordsFrom_joined hj hw ht]

/-! ## Words of any text -/

theorem isWord_of_mem_addWord {pending : List Char} (hp : ∀ c ∈ pending, isSpace c = false)
    {rest : List String} (hr : ∀ w ∈ rest, IsWord w) : ∀ w ∈ addWord pending rest, IsWord w := by
  unfold addWord
  split
  · exact hr
  · next hne =>
    rw [List.forall_mem_cons]
    refine ⟨⟨?_, by simpa using hp⟩, hr⟩
    simpa using hne

theorem isWord_of_mem_wordsFrom (cs : List Char) {pending : List Char}
    (hp : ∀ c ∈ pending, isSpace c = false) : ∀ w ∈ wordsFrom pending cs, IsWord w := by
  induction cs generalizing pending with
  | nil => exact isWord_of_mem_addWord hp (by simp)
  | cons c cs ih =>
    unfold wordsFrom
    split
    · exact isWord_of_mem_addWord hp (ih (by simp))
    · next hc =>
      rw [Bool.not_eq_true] at hc
      exact ih (List.forall_mem_cons.mpr ⟨hc, hp⟩)

theorem isWord_of_mem_words {text w : String} (h : w ∈ words text) : IsWord w :=
  isWord_of_mem_wordsFrom text.toList (by simp) w h

end Kennel.Text
