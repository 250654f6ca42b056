import Mathlib.Tactic
import SpeechGrammar.Text.Words

set_option autoImplicit false

/-!
# Words of a text

Laws of `words`: a blank separates what stands before it from what stands behind it, the words of
a text are not empty and have no blank in them, and a list of such words is found again in any
text that puts blanks between them. The normal form of a text is computed from its first
character and the normal form of the rest.
-/

namespace SpeechGrammar.Text

/-- The characters form one word. -/
def IsWord (cs : List Char) : Prop := cs ≠ [] ∧ ∀ c ∈ cs, isBlank c = false

/-- All characters are blank. -/
def AllBlank (cs : List Char) : Prop := ∀ c ∈ cs, isBlank c = true

instance (cs : List Char) : Decidable (AllBlank cs) := List.decidableBAll _ cs

theorem isBlank_space : isBlank ' ' = true := by decide

theorem isBlank_quote : isBlank '"' = false := by decide

/-! ## Words -/

@[simp] theorem words_nil : words [] = [] := rfl

/-- A blank separates words. -/
theorem words_append_cons {c : Char} (hc : isBlank c = true) (xs ys : List Char) :
    words (xs ++ c :: ys) = words xs ++ words ys := by
  rw [words, List.splitOnP_append_cons xs ys hc, List.filter_append]
  rfl

theorem words_cons_of_blank {c : Char} (hc : isBlank c = true) (cs : List Char) :
    words (c :: cs) = words cs := by
  rw [← List.nil_append (c :: cs), words_append_cons hc, words_nil, List.nil_append]

theorem words_of_isWord {w : List Char} (h : IsWord w) : words w = [w] := by
  rw [words, List.splitOnP_eq_singleton h.2]
  simp [h.1]

/-- What is not blank in front of a text that begins with a word belongs to that word. -/
theorem words_cons_cons {c d : Char} (hc : isBlank c = false) (hd : isBlank d = false)
    (cs : List Char) :
    ∃ w ws, words (d :: cs) = w :: ws ∧ words (c :: d :: cs) = (c :: w) :: ws := by
  obtain ⟨piece, pieces, hsplit⟩ := List.exists_cons_of_ne_nil
    (List.splitOnP_ne_nil isBlank cs)
  refine ⟨d :: piece, pieces.filter (fun w => !w.isEmpty), ?_, ?_⟩
  · simp [words, List.splitOnP_cons_eq_if_modifyHead, hd, hsplit]
  · simp [words, List.splitOnP_cons_eq_if_modifyHead, hc, hd, hsplit]

theorem words_eq_nil_of_allBlank {cs : List Char} (h : AllBlank cs) : words cs = [] := by
  induction cs with
  | nil => rfl
  | cons c cs ih =>
      rw [words_cons_of_blank (h c (by simp))]
      exact ih fun d hd => h d (by simp [hd])

theorem words_blank_append {lead : List Char} (h : AllBlank lead) (cs : List Char) :
    words (lead ++ cs) = words cs := by
  induction lead with
  | nil => rfl
  | cons c lead ih =>
      rw [List.cons_append, words_cons_of_blank (h c (by simp))]
      exact ih fun d hd => h d (by simp [hd])

theorem words_append_blank {trail : List Char} (h : AllBlank trail) (cs : List Char) :
    words (cs ++ trail) = words cs := by
  cases trail with
  | nil => rw [List.append_nil]
  | cons c trail =>
      have htrail : AllBlank trail := fun d hd => h d (by simp [hd])
      rw [words_append_cons (h c (by simp)), words_eq_nil_of_allBlank htrail, List.append_nil]

/-- Induction on a text by its first character and, if that begins a word, the second one. -/
theorem text_induction {motive : List Char → Prop} (nil : motive [])
    (blank : ∀ c cs, isBlank c = true → motive cs → motive (c :: cs))
    (last : ∀ c, isBlank c = false → motive [c])
    (wordEnd : ∀ c d cs, isBlank c = false → isBlank d = true → motive cs → motive (d :: cs) →
      motive (c :: d :: cs))
    (inWord : ∀ c d cs, isBlank c = false → isBlank d = false → motive (d :: cs) →
      motive (c :: d :: cs)) :
    ∀ cs, motive cs
  | [] => nil
  | [c] => by
      by_cases hc : isBlank c = true
      · exact blank c [] hc nil
      · exact last c (by simpa using hc)
  | c :: d :: cs => by
      have hcs := text_induction nil blank last wordEnd inWord cs
      have hdcs := text_induction nil blank last wordEnd inWord (d :: cs)
      by_cases hc : isBlank c = true
      · exact blank c (d :: cs) hc hdcs
      · by_cases hd : isBlank d = true
        · exact wordEnd c d cs (by simpa using hc) hd hcs hdcs
        · exact inWord c d cs (by simpa using hc) (by simpa using hd) hdcs

theorem isWord_singleton {c : Char} (hc : isBlank c = false) : IsWord [c] :=
  ⟨by simp, by simpa using hc⟩

theorem words_cons_blank_cons {c d : Char} (hc : isBlank c = false) (hd : isBlank d = true)
    (cs : List Char) : words (c :: d :: cs) = [c] :: words cs := by
  have := words_append_cons hd [c] cs
  rwa [words_of_isWord (isWord_singleton hc)] at this

/-- The words of a text are words. -/
theorem isWord_of_mem_words {cs w : List Char} (h : w ∈ words cs) : IsWord w := by
  induction cs using text_induction generalizing w with
  | nil => cases h
  | blank c cs hc ih =>
      rw [words_cons_of_blank hc] at h
      exact ih h
  | last c hc =>
      rw [words_of_isWord (isWord_singleton hc), List.mem_singleton] at h
      rw [h]
      exact isWord_singleton hc
  | wordEnd c d cs hc hd ih _ =>
      rw [words_cons_blank_cons hc hd] at h
      rcases List.mem_cons.1 h with rfl | h
      · exact isWord_singleton hc
      · exact ih h
  | inWord c d cs hc hd ih =>
      obtain ⟨v, vs, hdcs, hcdcs⟩ := words_cons_cons hc hd cs
      rw [hcdcs] at h
      rcases List.mem_cons.1 h with rfl | h
      · have hv : IsWord v := ih (by simp [hdcs])
        refine ⟨by simp, fun b hb => ?_⟩
        rcases List.mem_cons.1 hb with rfl | hb
        · exact hc
        · exact hv.2 b hb
      · exact ih (by simp [hdcs, h])

/-- A text without words is blank. -/
theorem allBlank_of_words_eq_nil {cs : List Char} (h : words cs = []) : AllBlank cs := by
  induction cs using text_induction with
  | nil => simp [AllBlank]
  | blank c cs hc ih =>
      rw [words_cons_of_blank hc] at h
      intro d hd
      rcases List.mem_cons.1 hd with rfl | hd
      · exact hc
      · exact ih h d hd
  | last c hc =>
      rw [words_of_isWord (isWord_singleton hc)] at h
      cases h
  | wordEnd c d cs hc hd _ _ =>
      rw [words_cons_blank_cons hc hd] at h
      cases h
  | inWord c d cs hc hd _ =>
      obtain ⟨w, ws, -, hcdcs⟩ := words_cons_cons hc hd cs
      rw [hcdcs] at h
      cases h

/-! ## Writing words -/

/-- A list of words with a space before each has these words. -/
theorem words_flatMap_space {ws : List (List Char)} (h : ∀ w ∈ ws, IsWord w) :
    words (ws.flatMap ([' '] ++ ·)) = ws := by
  induction ws with
  | nil => rfl
  | cons w ws ih =>
      have hrest := ih fun v hv => h v (by simp [hv])
      have hw := words_of_isWord (h w (by simp))
      rw [List.flatMap_cons, List.append_assoc, List.singleton_append,
        words_cons_of_blank isBlank_space]
      cases ws with
      | nil => simpa using hw
      | cons v vs =>
          rw [List.flatMap_cons, List.append_assoc, List.singleton_append] at hrest ⊢
          rw [words_cons_of_blank isBlank_space] at hrest
          rw [words_append_cons isBlank_space, hw, hrest]
          rfl

/-- Spaces before words are spaces between words, but for the first. -/
theorem flatMap_space_eq_cons {ws : List (List Char)} (h : ws ≠ []) :
    ws.flatMap ([' '] ++ ·) = ' ' :: [' '].intercalate ws := by
  induction ws with
  | nil => exact absurd rfl h
  | cons w ws ih =>
      cases ws with
      | nil => simp
      | cons v vs =>
          rw [List.flatMap_cons, ih (List.cons_ne_nil v vs), List.intercalate_cons_cons]
          simp

/-- A text in normal form has the words of the text. -/
theorem words_normalizeChars (cs : List Char) : words (normalizeChars cs) = words cs := by
  by_cases hws : words cs = []
  · simp [normalizeChars, hws]
  · rw [normalizeChars, ← words_cons_of_blank isBlank_space, ← flatMap_space_eq_cons hws]
    exact words_flatMap_space fun w hw => isWord_of_mem_words hw

/-- Texts with the same words have the same normal form. -/
theorem normalizeChars_congr {xs ys : List Char} (h : words xs = words ys) :
    normalizeChars xs = normalizeChars ys := by
  rw [normalizeChars, normalizeChars, h]

theorem normalizeChars_of_isWord {w : List Char} (h : IsWord w) : normalizeChars w = w := by
  rw [normalizeChars, words_of_isWord h, List.intercalate_singleton]

theorem normalizeChars_eq_nil_iff (cs : List Char) : normalizeChars cs = [] ↔ words cs = [] := by
  constructor
  · intro h
    rw [← words_normalizeChars, h, words_nil]
  · intro h
    rw [normalizeChars, h, List.intercalate_nil]

/-! ## The normal form, character by character -/

theorem normalizeChars_cons_of_blank {c : Char} (hc : isBlank c = true) (cs : List Char) :
    normalizeChars (c :: cs) = normalizeChars cs :=
  normalizeChars_congr (words_cons_of_blank hc cs)

/-- Behind the end of a word stands a space, if a word follows. -/
theorem normalizeChars_wordEnd {c d : Char} (hc : isBlank c = false) (hd : isBlank d = true)
    (cs : List Char) :
    normalizeChars (c :: d :: cs) =
      c :: (if normalizeChars cs = [] then [] else ' ' :: normalizeChars cs) := by
  rw [normalizeChars, words_cons_blank_cons hc hd]
  by_cases hnil : normalizeChars cs = []
  · rw [if_pos hnil, (normalizeChars_eq_nil_iff cs).1 hnil, List.intercalate_singleton]
  · have hws : words cs ≠ [] := fun h => hnil ((normalizeChars_eq_nil_iff cs).2 h)
    obtain ⟨w, ws, hcs⟩ := List.exists_cons_of_ne_nil hws
    rw [if_neg hnil, normalizeChars, hcs, List.intercalate_cons_cons]
    rfl

theorem normalizeChars_inWord {c d : Char} (hc : isBlank c = false) (hd : isBlank d = false)
    (cs : List Char) : normalizeChars (c :: d :: cs) = c :: normalizeChars (d :: cs) := by
  obtain ⟨w, ws, hdcs, hcdcs⟩ := words_cons_cons hc hd cs
  rw [normalizeChars, normalizeChars, hcdcs, hdcs]
  cases ws with
  | nil => simp
  | cons v vs => simp [List.intercalate_cons_cons]

/-- The normal form begins and ends with a word. -/
theorem normalizeChars_ends (cs : List Char) :
    (∀ c ∈ (normalizeChars cs).head?, isBlank c = false) ∧
      ∀ c ∈ (normalizeChars cs).getLast?, isBlank c = false := by
  induction cs using text_induction with
  | nil => simp [normalizeChars]
  | last c hc => simp [normalizeChars_of_isWord (isWord_singleton hc), hc]
  | blank c cs hc ih => rwa [normalizeChars_cons_of_blank hc]
  | wordEnd c d cs hc hd ih _ =>
      rw [normalizeChars_wordEnd hc hd]
      refine ⟨by simp [hc], ?_⟩
      by_cases hnil : normalizeChars cs = []
      · simp [hnil, hc]
      · obtain ⟨a, as, has⟩ := List.exists_cons_of_ne_nil hnil
        rw [if_neg hnil, has, List.getLast?_cons_cons, List.getLast?_cons_cons, ← has]
        exact ih.2
  | inWord c d cs hc hd ih =>
      rw [normalizeChars_inWord hc hd]
      refine ⟨by simp [hc], ?_⟩
      by_cases hnil : normalizeChars (d :: cs) = []
      · simp [hnil, hc]
      · obtain ⟨a, as, has⟩ := List.exists_cons_of_ne_nil hnil
        rw [has, List.getLast?_cons_cons, ← has]
        exact ih.2

end SpeechGrammar.Text
