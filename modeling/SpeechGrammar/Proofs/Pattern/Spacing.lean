import SpeechGrammar.Proofs.Pattern.Fragment
import SpeechGrammar.Proofs.Text.Quotes

set_option autoImplicit false

/-!
# One notion of words

White space is treated in four places: a text is trimmed and its runs of blanks are collapsed, the
words of an utterance are written with a space before each or with nothing between them, and the
words of a grammar are written into a pattern. All four see of a text its words and nothing else
(`spacing_agrees`).
-/

namespace SpeechGrammar

open Text Regex

/-! ## Collapsing -/

/-- A text in which each run of blanks, taken as long as it is, is replaced by one space. -/
inductive Text.Collapses : List Char → List Char → Prop
  | nil : Collapses [] []
  | char {c : Char} {cs ds : List Char} (hc : isBlank c = false) (hcs : Collapses cs ds) :
      Collapses (c :: cs) (c :: ds)
  | run {run cs ds : List Char} (hne : run ≠ []) (hrun : AllBlank run)
      (hnext : ∀ c ∈ cs.head?, isBlank c = false) (hcs : Collapses cs ds) :
      Collapses (run ++ cs) (' ' :: ds)

theorem Text.squeeze_run {run cs : List Char} (hne : run ≠ []) (hrun : AllBlank run)
    (hnext : ∀ c ∈ cs.head?, isBlank c = false) : squeeze (run ++ cs) = ' ' :: squeeze cs := by
  induction run with
  | nil => exact absurd rfl hne
  | cons c run ih =>
      obtain ⟨hc, hrest⟩ := List.forall_mem_cons.1 hrun
      cases run with
      | nil =>
          cases cs with
          | nil => simp [squeeze, hc]
          | cons d cs => simp [squeeze, hc, hnext d rfl]
      | cons d run =>
          have hd : isBlank d = true := hrest d (List.mem_cons_self ..)
          rw [← ih (List.cons_ne_nil d run) hrest]
          simp [squeeze, hc, hd]

theorem Text.collapses_squeeze (cs : List Char) : Collapses cs (squeeze cs) := by
  cases cs with
  | nil => exact .nil
  | cons c cs =>
      by_cases hc : isBlank c = true
      · -- The run at the start of the text ends where its first other character stands.
        have hsplit : (c :: cs).takeWhile isBlank ++ (c :: cs).dropWhile isBlank = c :: cs :=
          List.takeWhile_append_dropWhile
        have hne : (c :: cs).takeWhile isBlank ≠ [] := by simp [hc]
        have hrun : AllBlank ((c :: cs).takeWhile isBlank) := fun d hd => List.mem_takeWhile_imp hd
        have hnext := head?_dropWhile isBlank (c :: cs)
        have hcs := Collapses.run hne hrun hnext
          (collapses_squeeze ((c :: cs).dropWhile isBlank))
        rwa [← squeeze_run hne hrun hnext, hsplit] at hcs
      · have hc : isBlank c = false := by simpa using hc
        rw [squeeze_cons hc]
        exact .char hc (collapses_squeeze cs)
termination_by cs.length
decreasing_by
  · rw [List.dropWhile_cons_of_pos hc, List.length_cons]
    exact Nat.lt_succ_of_le (List.length_dropWhile_le ..)
  · exact Nat.lt_succ_self _

/-- There is one way to collapse a text. -/
theorem Text.collapses_iff {cs ds : List Char} : Collapses cs ds ↔ ds = squeeze cs := by
  constructor
  · intro h
    induction h with
    | nil => rfl
    | char hc _ ih => rw [squeeze_cons hc, ih]
    | run hne hrun hnext _ ih => rw [squeeze_run hne hrun hnext, ih]
  · rintro rfl
    exact collapses_squeeze cs

/-- It makes no difference whether the blanks at the ends go first or the runs are collapsed
first. -/
theorem Text.squeeze_trim (cs : List Char) : squeeze (trim cs) = normalizeChars cs := by
  have hends : (∀ c ∈ (squeeze (trim cs)).head?, isBlank c = false) ∧
      ∀ c ∈ (squeeze (trim cs)).getLast?, isBlank c = false := by
    have hends := trimBy_ends isBlank cs
    change (∀ c ∈ (trim cs).head?, isBlank c = false) ∧
      ∀ c ∈ (trim cs).getLast?, isBlank c = false at hends
    generalize trim cs = ds at hends
    constructor
    · cases ds with
      | nil => simp [squeeze]
      | cons d ds =>
          have hd : isBlank d = false := hends.1 d rfl
          simpa [squeeze_cons hd] using hd
    · obtain rfl | ⟨ds, d, rfl⟩ := List.eq_nil_or_concat ds
      · simp [squeeze]
      · have hd : isBlank d = false := hends.2 d (by simp)
        simpa [squeeze_append_cons hd, squeeze] using hd
  calc squeeze (trim cs)
      = trim (squeeze (trim cs)) := (trimBy_eq_self hends.1 hends.2).symm
    _ = normalizeChars (trim cs) := trim_squeeze (trim cs)
    _ = normalizeChars cs := normalizeChars_congr (words_trim cs)

/-! ## The two written forms -/

theorem wordFragment_congr {xs ys : List Char} (h : words xs = words ys) (sep : Separator) :
    wordFragment sep xs = wordFragment sep ys := by
  rw [wordFragment, wordFragment, h]

theorem canonicalChars_congr {xs ys : List Char} (h : words xs = words ys) (sep : Separator) :
    canonicalChars sep xs = canonicalChars sep ys := by
  rw [canonicalChars, canonicalChars, h]

/-- With a space before each word the words can be read again. -/
theorem words_canonicalChars (cs : List Char) : words (canonicalChars .space cs) = words cs :=
  words_flatMap_space fun _ hw => isWord_of_mem_words hw

theorem canonicalChars_space_eq_iff {xs ys : List Char} :
    canonicalChars .space xs = canonicalChars .space ys ↔ words xs = words ys := by
  constructor
  · intro h
    rw [← words_canonicalChars xs, h, words_canonicalChars]
  · intro h
    exact canonicalChars_congr h .space

/-- With nothing between the words all that is left is one word, or none. -/
theorem canonicalChars_adjacent (cs : List Char) :
    canonicalChars .adjacent cs = withoutBlanks cs := by
  rw [canonicalChars, ← flatten_words]
  exact List.flatMap_id'

theorem canonicalChars_canonicalChars (sep : Separator) (cs : List Char) :
    canonicalChars sep (canonicalChars sep cs) = canonicalChars sep cs := by
  cases sep with
  | space => exact canonicalChars_congr (words_canonicalChars cs) .space
  | adjacent =>
      calc canonicalChars .adjacent (canonicalChars .adjacent cs)
          = withoutBlanks (withoutBlanks cs) := by
            rw [canonicalChars_adjacent, canonicalChars_adjacent]
        _ = withoutBlanks (words cs).flatten := by rw [flatten_words]
        _ = withoutBlanks cs := withoutBlanks_flatten_words cs
        _ = canonicalChars .adjacent cs := (canonicalChars_adjacent cs).symm

theorem canonicalize_congr {s t : String} (h : words s.toList = words t.toList)
    (sep : Separator) : canonicalize sep s = canonicalize sep t := by
  rw [canonicalize, canonicalize, canonicalChars_congr h]

/-- A text is normalized by trimming it and collapsing its runs of blanks, which joins its words by
single spaces. A normalized text is written like the text itself, in a pattern and as an utterance.
With a space before each word two utterances are written alike exactly if they have the same words,
and what is written is written again in the same way. -/
theorem spacing_agrees (s : String) :
    (∀ cs, Collapses (trim s.toList) cs ↔ cs = (Text.normalize s).toList) ∧
      Text.normalize s = " ".intercalate ((words s.toList).map String.ofList) ∧
      (∀ sep, wordFragment sep (Text.normalize s).toList = wordFragment sep s.toList ∧
        canonicalize sep (Text.normalize s) = canonicalize sep s) ∧
      (∀ t, canonicalize .space s = canonicalize .space t ↔ words s.toList = words t.toList) ∧
      ∀ sep, canonicalize sep (canonicalize sep s) = canonicalize sep s := by
  have htoList : (Text.normalize s).toList = normalizeChars s.toList := String.toList_ofList
  have hwords : words (Text.normalize s).toList = words s.toList := by
    rw [htoList, words_normalizeChars]
  refine ⟨fun cs => ?_, ?_, fun sep => ⟨?_, ?_⟩, fun t => ?_, fun sep => ?_⟩
  · rw [collapses_iff, squeeze_trim, htoList]
  · have hmap : ((words s.toList).map String.ofList).map String.toList = words s.toList := by
      simp [Function.comp_def]
    rw [← String.toList_inj, htoList, String.toList_intercalate, hmap]
    rfl
  · exact wordFragment_congr hwords sep
  · exact canonicalize_congr hwords sep
  · rw [canonicalize, canonicalize, String.ofList_inj, canonicalChars_space_eq_iff]
  · rw [canonicalize, canonicalize, String.toList_ofList, canonicalChars_canonicalChars]

end SpeechGrammar
