import Mathlib.Data.List.TakeWhile
import SpeechGrammar.Proofs.Text.Words
import SpeechGrammar.Text.Phrases

set_option autoImplicit false

/-!
# Tokens of a normalized text

Normalizing a text normalizes each of its tokens and changes nothing else
(`tokenChars_normalizeChars`). The normal form is reached in two steps: `squeeze` joins each run
of blanks to one space, which keeps every quote in its place, and then the blanks at the two ends
are removed.
-/

namespace SpeechGrammar.Text

/-- A text with each run of blanks joined to one space. -/
def squeeze : List Char → List Char
  | [] => []
  | [c] => if isBlank c then [' '] else [c]
  | c :: d :: cs =>
      if isBlank c then
        if isBlank d then squeeze (d :: cs) else ' ' :: squeeze (d :: cs)
      else c :: squeeze (d :: cs)

theorem squeeze_cons {c : Char} (hc : isBlank c = false) (cs : List Char) :
    squeeze (c :: cs) = c :: squeeze cs := by
  cases cs with
  | nil => simp [squeeze, hc]
  | cons d cs => simp [squeeze, hc]

/-- Squeezing goes on behind a character that is not blank as at the start of a text. -/
theorem squeeze_append_cons {c : Char} (hc : isBlank c = false) (xs ys : List Char) :
    squeeze (xs ++ c :: ys) = squeeze xs ++ c :: squeeze ys := by
  induction xs with
  | nil => exact squeeze_cons hc ys
  | cons x xs ih =>
      cases xs with
      | nil => by_cases hx : isBlank x = true <;> simp [squeeze, hx, hc, squeeze_cons hc]
      | cons y xs =>
          rw [List.cons_append] at ih
          by_cases hx : isBlank x = true
          · by_cases hy : isBlank y = true <;> simp [squeeze, hx, hy, ih]
          · simp [squeeze, hx, ih]

/-- Squeezing a part of a text leaves the words of the text. -/
theorem words_append_squeeze (xs cs ys : List Char) :
    words (xs ++ (squeeze cs ++ ys)) = words (xs ++ (cs ++ ys)) := by
  -- A character of a word moves to the text before, which is why that is arbitrary.
  induction cs using squeeze.induct generalizing xs with
  | case1 => rfl
  | case2 c hc => simp [squeeze, hc, words_append_cons hc, words_append_cons isBlank_space]
  | case3 c hc => simp [squeeze, hc]
  | case4 c d cs hc hd ih =>
      have hcd : words (xs ++ (c :: d :: cs ++ ys)) = words (xs ++ (d :: cs ++ ys)) := by
        simp [words_append_cons hc, words_append_cons hd, words_cons_of_blank hd]
      rw [squeeze, if_pos hc, if_pos hd, ih, hcd]
  | case5 c d cs hc hd ih =>
      have hsplit := ih []
      simp only [List.nil_append] at hsplit
      calc words (xs ++ (squeeze (c :: d :: cs) ++ ys))
          = words (xs ++ ' ' :: (squeeze (d :: cs) ++ ys)) := by
            rw [squeeze, if_pos hc, if_neg hd, List.cons_append]
        _ = words xs ++ words (d :: cs ++ ys) := by
            rw [words_append_cons isBlank_space, hsplit]
        _ = words (xs ++ (c :: d :: cs ++ ys)) := (words_append_cons hc xs _).symm
  | case6 c d cs hc ih =>
      have hsplit := ih (xs ++ [c])
      rw [squeeze, if_neg hc]
      simpa using hsplit

theorem words_squeeze (cs : List Char) : words (squeeze cs) = words cs := by
  simpa using words_append_squeeze [] cs []

/-! ## Removing the blanks at the ends -/

theorem head?_dropWhile (p : Char → Bool) (cs : List Char) :
    ∀ c ∈ (cs.dropWhile p).head?, p c = false := by
  intro c hc
  have hnot := List.head?_dropWhile_not p cs
  rw [hc] at hnot
  simpa using hnot

theorem dropWhile_append_eq {p : Char → Bool} {run after : List Char} (hrun : ∀ c ∈ run, p c = true)
    (hafter : ∀ c ∈ after.head?, p c = false) : (run ++ after).dropWhile p = after := by
  rw [List.dropWhile_append_of_pos hrun]
  cases after with
  | nil => rfl
  | cons c after => simp [hafter c rfl]

theorem takeWhile_append_eq {p : Char → Bool} {run after : List Char} (hrun : ∀ c ∈ run, p c = true)
    (hafter : ∀ c ∈ after.head?, p c = false) : (run ++ after).takeWhile p = run := by
  rw [List.takeWhile_append_of_pos hrun]
  cases after with
  | nil => exact List.append_nil run
  | cons c after => simp [hafter c rfl]

theorem trimBy_append {p : Char → Bool} {lead cs trail : List Char} (hlead : ∀ c ∈ lead, p c = true)
    (htrail : ∀ c ∈ trail, p c = true) (hfirst : ∀ c ∈ cs.head?, p c = false)
    (hlast : ∀ c ∈ cs.getLast?, p c = false) : trimBy p (lead ++ (cs ++ trail)) = cs := by
  have htrail' : ∀ c ∈ trail.reverse, p c = true := fun c hc => htrail c (by simpa using hc)
  have hlast' : ∀ c ∈ cs.reverse.head?, p c = false := by simpa using hlast
  rw [trimBy]
  cases cs with
  | nil =>
      have hall : ∀ c ∈ lead ++ trail, p c = true := List.forall_mem_append.2 ⟨hlead, htrail⟩
      have hnil := List.dropWhile_eq_nil_iff.2 hall
      simp [hnil]
  | cons c cs =>
      rw [dropWhile_append_eq hlead (by simpa using hfirst), List.reverse_append,
        dropWhile_append_eq htrail' hlast', List.reverse_reverse]

/-- Nothing is removed from a text with other characters at its ends. -/
theorem trimBy_eq_self {p : Char → Bool} {cs : List Char} (hfirst : ∀ c ∈ cs.head?, p c = false)
    (hlast : ∀ c ∈ cs.getLast?, p c = false) : trimBy p cs = cs := by
  have hnone : ∀ c ∈ ([] : List Char), p c = true := by simp
  simpa using trimBy_append hnone hnone hfirst hlast

theorem trimBy_of_forall {p : Char → Bool} {cs : List Char} (h : ∀ c ∈ cs, p c = true) :
    trimBy p cs = [] := by
  have htrim : trimBy p (cs ++ ([] ++ [])) = [] := trimBy_append h (by simp) (by simp) (by simp)
  simpa using htrim

theorem trim_of_allBlank {cs : List Char} (h : AllBlank cs) : trim cs = [] := trimBy_of_forall h

/-- A text that is put behind characters of the class is trimmed as if they were not there. -/
theorem trimBy_append_left {p : Char → Bool} {lead : List Char} (h : ∀ c ∈ lead, p c = true)
    (cs : List Char) : trimBy p (lead ++ cs) = trimBy p cs := by
  rw [trimBy, trimBy, List.dropWhile_append_of_pos h]

/-- Every text stands between the characters that trimming removes. -/
theorem exists_eq_append_trimBy (p : Char → Bool) (cs : List Char) :
    ∃ lead trail, (∀ c ∈ lead, p c = true) ∧ (∀ c ∈ trail, p c = true) ∧
      cs = lead ++ (trimBy p cs ++ trail) := by
  have hsplit : ∀ ys : List Char, ∃ zs, (∀ c ∈ zs, p c = true) ∧ ys = zs ++ ys.dropWhile p := by
    intro ys
    exact ⟨ys.takeWhile p, fun c hc => List.mem_takeWhile_imp hc,
      List.takeWhile_append_dropWhile.symm⟩
  obtain ⟨lead, hlead, hcs⟩ := hsplit cs
  obtain ⟨trail, htrail, hrest⟩ := hsplit (cs.dropWhile p).reverse
  refine ⟨lead, trail.reverse, hlead, fun c hc => htrail c (by simpa using hc), ?_⟩
  have hrev := congrArg List.reverse hrest
  rw [List.reverse_reverse, List.reverse_append] at hrev
  rw [trimBy, ← hrev]
  exact hcs

theorem forall_of_trimBy_eq_nil {p : Char → Bool} {cs : List Char} (h : trimBy p cs = []) :
    ∀ c ∈ cs, p c = true := by
  obtain ⟨lead, trail, hlead, htrail, hcs⟩ := exists_eq_append_trimBy p cs
  rw [h, List.nil_append] at hcs
  rw [hcs]
  exact List.forall_mem_append.2 ⟨hlead, htrail⟩

/-- Trimming leaves no character of the class at either end. -/
theorem trimBy_ends (p : Char → Bool) (cs : List Char) :
    (∀ c ∈ (trimBy p cs).head?, p c = false) ∧ ∀ c ∈ (trimBy p cs).getLast?, p c = false := by
  constructor
  · intro c hc
    obtain ⟨trail, htrail⟩ := List.dropWhile_suffix p (l := (cs.dropWhile p).reverse)
    have hfirst : cs.dropWhile p = trimBy p cs ++ trail.reverse := by
      rw [trimBy, ← List.reverse_append, htrail, List.reverse_reverse]
    refine head?_dropWhile p cs c ?_
    rw [hfirst, List.head?_append, hc]
    rfl
  · intro c hc
    rw [trimBy, List.getLast?_reverse] at hc
    exact head?_dropWhile p _ c hc

/-- A text with characters of the class behind it is trimmed as if they were not there. -/
theorem trimBy_append_right {p : Char → Bool} {trail : List Char} (h : ∀ c ∈ trail, p c = true)
    (cs : List Char) : trimBy p (cs ++ trail) = trimBy p cs := by
  obtain ⟨lead, more, hlead, hmore, hcs⟩ := exists_eq_append_trimBy p cs
  have htrim := trimBy_append hlead (List.forall_mem_append.2 ⟨hmore, h⟩) (trimBy_ends p cs).1
    (trimBy_ends p cs).2
  rwa [← List.append_assoc (trimBy p cs), ← List.append_assoc, ← hcs] at htrim

/-- When two texts that do not vanish are trimmed as one, the characters of the class between them
stay. -/
theorem trimBy_append_between {p : Char → Bool} {xs ys : List Char} (hxs : trimBy p xs ≠ [])
    (hys : trimBy p ys ≠ []) :
    ∃ between, (∀ c ∈ between, p c = true) ∧
      trimBy p (xs ++ ys) = trimBy p xs ++ (between ++ trimBy p ys) ∧
      (between = [] ↔ (∀ c ∈ xs.getLast?, p c = false) ∧ ∀ c ∈ ys.head?, p c = false) := by
  obtain ⟨lead, trail, hlead, htrail, hleft⟩ := exists_eq_append_trimBy p xs
  obtain ⟨lead', trail', hlead', htrail', hright⟩ := exists_eq_append_trimBy p ys
  have hfirst := trimBy_ends p xs
  have hsecond := trimBy_ends p ys
  generalize trimBy p xs = left at *
  generalize trimBy p ys = right at *
  refine ⟨trail ++ lead', List.forall_mem_append.2 ⟨htrail, hlead'⟩, ?_, ?_⟩
  · have hends : (∀ c ∈ (left ++ (trail ++ lead' ++ right)).head?, p c = false) ∧
        ∀ c ∈ (left ++ (trail ++ lead' ++ right)).getLast?, p c = false := by
      rw [List.head?_append_of_ne_nil _ hxs, ← List.append_assoc,
        List.getLast?_append_of_ne_nil _ hys]
      exact ⟨hfirst.1, hsecond.2⟩
    have htrim := trimBy_append hlead htrail' hends.1 hends.2
    rw [hleft, hright]
    simpa using htrim
  · rw [List.append_eq_nil_iff]
    constructor
    · rintro ⟨rfl, rfl⟩
      rw [hleft, hright, List.append_nil, List.nil_append, List.getLast?_append_of_ne_nil _ hxs,
        List.head?_append_of_ne_nil _ hys]
      exact ⟨hfirst.2, hsecond.1⟩
    · rintro ⟨hlast, hhead⟩
      constructor
      · obtain rfl | ⟨cs, c, rfl⟩ := List.eq_nil_or_concat trail
        · rfl
        · have hc := hlast c (by rw [hleft]; simp)
          rw [htrail c (by simp)] at hc
          cases hc
      · cases lead' with
        | nil => rfl
        | cons c cs =>
            have hc := hhead c (by rw [hright]; rfl)
            rw [hlead' c (List.mem_cons_self ..)] at hc
            cases hc

theorem words_trimBy {p : Char → Bool} (hp : ∀ c, p c = true → isBlank c = true)
    (cs : List Char) : words (trimBy p cs) = words cs := by
  obtain ⟨lead, trail, hlead, htrail, hcs⟩ := exists_eq_append_trimBy p cs
  conv_rhs => rw [hcs]
  rw [words_blank_append fun c hc => hp c (hlead c hc),
    words_append_blank fun c hc => hp c (htrail c hc)]

theorem words_trim (cs : List Char) : words (trim cs) = words cs := words_trimBy (fun _ h => h) cs

theorem trim_normalizeChars_between {lead trail : List Char} (hlead : AllBlank lead)
    (htrail : AllBlank trail) (cs : List Char) :
    trim (lead ++ (normalizeChars cs ++ trail)) = normalizeChars cs :=
  trimBy_append hlead htrail (normalizeChars_ends cs).1 (normalizeChars_ends cs).2

/-- A squeezed text is the normal form with blanks around it. A text that begins with a blank
has exactly one in front. -/
theorem squeeze_eq_append (cs : List Char) :
    ∃ trail, AllBlank trail ∧ squeeze cs =
      (if cs.head?.any isBlank then [' '] else []) ++ (normalizeChars cs ++ trail) := by
  induction cs using text_induction with
  | nil => exact ⟨[], by simp [AllBlank], rfl⟩
  | last c hc =>
      refine ⟨[], by simp [AllBlank], ?_⟩
      simp [squeeze, hc, normalizeChars_of_isWord (isWord_singleton hc)]
  | blank c cs hc ih =>
      obtain ⟨trail, htrail, hcs⟩ := ih
      refine ⟨trail, htrail, ?_⟩
      rw [normalizeChars_cons_of_blank hc]
      cases cs with
      | nil => simpa [squeeze, hc] using hcs
      | cons d cs =>
          by_cases hd : isBlank d = true
          · simpa [squeeze, hc, hd] using hcs
          · simpa [squeeze, hc, hd] using hcs
  | wordEnd c d cs hc hd _ ih =>
      obtain ⟨trail, htrail, hcs⟩ := ih
      have hsqueeze : squeeze (c :: d :: cs) = c :: ' ' :: (normalizeChars cs ++ trail) := by
        rw [squeeze_cons hc, hcs, normalizeChars_cons_of_blank hd]
        simp [hd]
      rw [hsqueeze, normalizeChars_wordEnd hc hd]
      -- A space at the end of the last word is trailing, any other stands between two words.
      by_cases hnil : normalizeChars cs = []
      · refine ⟨' ' :: trail, ?_, by simp [hnil, hc]⟩
        intro b hb
        rcases List.mem_cons.1 hb with rfl | hb
        · exact isBlank_space
        · exact htrail b hb
      · exact ⟨trail, htrail, by simp [hnil, hc]⟩
  | inWord c d cs hc hd ih =>
      obtain ⟨trail, htrail, hcs⟩ := ih
      refine ⟨trail, htrail, ?_⟩
      rw [squeeze_cons hc, hcs, normalizeChars_inWord hc hd]
      simp [hc, hd]

theorem trim_squeeze (cs : List Char) : trim (squeeze cs) = normalizeChars cs := by
  obtain ⟨trail, htrail, hcs⟩ := squeeze_eq_append cs
  rw [hcs]
  refine trim_normalizeChars_between ?_ htrail cs
  intro c hc
  by_cases hhead : cs.head?.any isBlank = true
  · rw [if_pos hhead, List.mem_singleton] at hc
    rw [hc]
    exact isBlank_space
  · rw [if_neg hhead] at hc
    cases hc

/-! ## Tokens -/

theorem notMem_squeeze {cs : List Char} (h : '"' ∉ cs) : '"' ∉ squeeze cs := by
  induction cs using squeeze.induct <;> simp_all [squeeze]

/-- Squeezing keeps the pieces between the quotes apart. -/
theorem splitOn_squeeze (cs : List Char) :
    (squeeze cs).splitOn '"' = (cs.splitOn '"').map squeeze := by
  -- A quote is not blank, so both sides are cut there; the two parts are shorter.
  by_cases hmem : '"' ∈ cs
  · obtain ⟨xs, ys, hcs⟩ := List.append_of_mem hmem
    rw [hcs, squeeze_append_cons isBlank_quote, List.splitOn_append_cons_self,
      List.splitOn_append_cons_self, splitOn_squeeze xs, splitOn_squeeze ys, List.map_append]
  · rw [List.splitOn_eq_singleton (notMem_squeeze hmem), List.splitOn_eq_singleton hmem,
      List.map_singleton]
termination_by cs.length
decreasing_by
  · simp [hcs]
  · rw [hcs, List.length_append, List.length_cons]
    omega

theorem map_normalizeChars_words (cs : List Char) :
    (words cs).map normalizeChars = words cs := by
  conv_rhs => rw [← List.map_id (words cs)]
  exact List.map_congr_left fun w hw => normalizeChars_of_isWord (isWord_of_mem_words hw)

theorem phrase_squeeze (cs : List Char) :
    phrase (squeeze cs) = (phrase cs).map normalizeChars := by
  have hnorm : normalizeChars (trim cs) = normalizeChars cs := normalizeChars_congr (words_trim cs)
  by_cases hnil : trim cs = []
  · have hcs : normalizeChars cs = [] := by
      rw [← hnorm, hnil]
      rfl
    simp [phrase, trim_squeeze, hnil, hcs]
  · have hcs : normalizeChars cs ≠ [] := fun h =>
      hnil (trim_of_allBlank (allBlank_of_words_eq_nil ((normalizeChars_eq_nil_iff cs).1 h)))
    simp [phrase, trim_squeeze, hnil, hcs, hnorm]

/-- Squeezing the pieces between the quotes normalizes the tokens. -/
theorem tokensOfPieces_squeeze (pieces : List (List Char)) :
    tokensOfPieces (pieces.map squeeze) = (tokensOfPieces pieces).map normalizeChars := by
  induction pieces using tokensOfPieces.induct with
  | case1 => rfl
  | case2 outside =>
      simp only [List.map_cons, List.map_nil, tokensOfPieces, words_squeeze,
        map_normalizeChars_words]
  | case3 outside unpaired =>
      have hsqueeze : words (squeeze outside ++ '"' :: squeeze unpaired) =
          words (outside ++ '"' :: unpaired) := by
        rw [← squeeze_append_cons isBlank_quote, words_squeeze]
      simp only [List.map_cons, List.map_nil, tokensOfPieces, hsqueeze, map_normalizeChars_words]
  | case4 outside inside rest hrest ih =>
      cases rest with
      | nil => exact absurd rfl hrest
      | cons next rest =>
          rw [List.map_cons] at ih
          simp only [List.map_cons, tokensOfPieces, words_squeeze, phrase_squeeze, ih,
            List.map_append, map_normalizeChars_words]

/-- A text without the separator joins the first piece of the text behind it. -/
theorem splitOn_append_left {lead : List Char} {sep : Char} (h : sep ∉ lead) (cs : List Char) :
    ∃ piece pieces, cs.splitOn sep = piece :: pieces ∧
      (lead ++ cs).splitOn sep = (lead ++ piece) :: pieces := by
  by_cases hmem : sep ∈ cs
  · obtain ⟨xs, ys, hcs, hxs⟩ := List.eq_append_cons_of_mem hmem
    have hlead : sep ∉ lead ++ xs := by simp [h, hxs]
    refine ⟨xs, ys.splitOn sep, ?_, ?_⟩
    · rw [hcs, List.splitOn_append_cons_self_of_not_mem hxs]
    · rw [hcs, ← List.append_assoc, List.splitOn_append_cons_self_of_not_mem hlead]
  · have hboth : sep ∉ lead ++ cs := by simp [h, hmem]
    exact ⟨cs, [], List.splitOn_eq_singleton hmem, List.splitOn_eq_singleton hboth⟩

/-- Where two texts are put together, the last piece of the one joins the first of the other. -/
theorem splitOn_append (xs ys : List Char) (sep : Char) :
    ∃ pieces last first rest, xs.splitOn sep = pieces ++ [last] ∧ ys.splitOn sep = first :: rest ∧
      (xs ++ ys).splitOn sep = pieces ++ (last ++ first) :: rest := by
  by_cases hmem : sep ∈ xs
  · obtain ⟨before, after, hxs, hbefore⟩ := List.eq_append_cons_of_mem hmem
    obtain ⟨pieces, last, first, rest, hafter, hys, happend⟩ := splitOn_append after ys sep
    refine ⟨before :: pieces, last, first, rest, ?_, hys, ?_⟩
    · rw [hxs, List.splitOn_append_cons_self_of_not_mem hbefore, hafter, List.cons_append]
    · rw [hxs, List.append_assoc, List.cons_append,
        List.splitOn_append_cons_self_of_not_mem hbefore, happend, List.cons_append]
  · obtain ⟨first, rest, hys, happend⟩ := splitOn_append_left hmem ys
    exact ⟨[], xs, first, rest, List.splitOn_eq_singleton hmem, hys, happend⟩
termination_by xs.length
decreasing_by
  rw [hxs, List.length_append, List.length_cons]
  omega

/-- A text without the separator joins the last piece of the text before it. -/
theorem splitOn_append_right {trail : List Char} {sep : Char} (h : sep ∉ trail)
    (cs : List Char) :
    ∃ pieces piece, cs.splitOn sep = pieces ++ [piece] ∧
      (cs ++ trail).splitOn sep = pieces ++ [piece ++ trail] := by
  obtain ⟨pieces, last, first, rest, hcs, htrail, happend⟩ := splitOn_append cs trail sep
  rw [List.splitOn_eq_singleton h, List.cons.injEq] at htrail
  obtain ⟨rfl, rfl⟩ := htrail
  exact ⟨pieces, last, hcs, happend⟩

theorem AllBlank.notMem_quote {cs : List Char} (h : AllBlank cs) : '"' ∉ cs := by
  intro hq
  have hblank := h '"' hq
  rw [isBlank_quote] at hblank
  cases hblank

/-- Blanks in front of a text change none of its tokens. -/
theorem tokenChars_blank_append {lead : List Char} (h : AllBlank lead) (cs : List Char) :
    tokenChars (lead ++ cs) = tokenChars cs := by
  obtain ⟨piece, pieces, hcs, hlead⟩ := splitOn_append_left h.notMem_quote cs
  rw [tokenChars, tokenChars, hcs, hlead]
  cases pieces with
  | nil => simp only [tokensOfPieces, words_blank_append h]
  | cons next rest =>
      cases rest with
      | nil => simp only [tokensOfPieces, List.append_assoc, words_blank_append h]
      | cons _ _ => simp only [tokensOfPieces, words_blank_append h]

/-- Blanks behind the last piece change none of the tokens. -/
theorem tokensOfPieces_append_blank {trail : List Char} (h : AllBlank trail)
    (pieces : List (List Char)) (piece : List Char) :
    tokensOfPieces (pieces ++ [piece ++ trail]) = tokensOfPieces (pieces ++ [piece]) := by
  induction pieces using tokensOfPieces.induct with
  | case1 => simp only [List.nil_append, tokensOfPieces, words_append_blank h]
  | case2 outside =>
      simp only [List.singleton_append, tokensOfPieces, ← List.cons_append, ← List.append_assoc,
        words_append_blank h]
  | case3 outside unpaired =>
      simp only [List.cons_append, List.nil_append, tokensOfPieces, words_append_blank h]
  | case4 outside inside rest hrest ih =>
      have hstep : ∀ last : List Char, tokensOfPieces (outside :: inside :: rest ++ [last]) =
          words outside ++ phrase inside ++ tokensOfPieces (rest ++ [last]) := by
        intro last
        cases rest with
        | nil => exact absurd rfl hrest
        | cons next rest => rfl
      rw [hstep, hstep, ih]

/-- Blanks behind a text change none of its tokens. -/
theorem tokenChars_append_blank {trail : List Char} (h : AllBlank trail) (cs : List Char) :
    tokenChars (cs ++ trail) = tokenChars cs := by
  obtain ⟨pieces, piece, hcs, htrail⟩ := splitOn_append_right h.notMem_quote cs
  rw [tokenChars, tokenChars, hcs, htrail, tokensOfPieces_append_blank h]

theorem tokenChars_trimBy {p : Char → Bool} (hp : ∀ c, p c = true → isBlank c = true)
    (cs : List Char) : tokenChars (trimBy p cs) = tokenChars cs := by
  obtain ⟨lead, trail, hlead, htrail, hcs⟩ := exists_eq_append_trimBy p cs
  conv_rhs => rw [hcs]
  rw [tokenChars_blank_append fun c hc => hp c (hlead c hc),
    tokenChars_append_blank fun c hc => hp c (htrail c hc)]

theorem tokenChars_trim (cs : List Char) : tokenChars (trim cs) = tokenChars cs :=
  tokenChars_trimBy (fun _ h => h) cs

/-- The tokens of a normalized text are the tokens of the text, each normalized. -/
theorem tokenChars_normalizeChars (cs : List Char) :
    tokenChars (normalizeChars cs) = (tokenChars cs).map normalizeChars := by
  calc tokenChars (normalizeChars cs)
      = tokenChars (squeeze cs) := by rw [← trim_squeeze, tokenChars_trim]
    _ = tokensOfPieces ((cs.splitOn '"').map squeeze) := by rw [tokenChars, splitOn_squeeze]
    _ = (tokenChars cs).map normalizeChars := tokensOfPieces_squeeze _

/-- Normalizing a text leaves the words of its tokens. -/
theorem words_tokenChars_normalizeChars (cs : List Char) :
    (tokenChars (normalizeChars cs)).flatMap words = (tokenChars cs).flatMap words := by
  simp [tokenChars_normalizeChars, List.flatMap_map, words_normalizeChars]

end SpeechGrammar.Text
