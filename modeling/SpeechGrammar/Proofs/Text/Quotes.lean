import SpeechGrammar.Proofs.Text.Phrases

set_option autoImplicit false

/-!
# Quotes

Splitting a text into tokens loses and invents nothing (`splitTokens_lossless`). What the tokens
of a text are is said by `SplitsInto`, pair of quotes by pair of quotes, without a way to find
them; there is exactly one list of tokens for each text. They are what a scan for `"[^"]*"` from
the left passes over and finds (`splitTokens_eq_of_phraseScan`). But for blanks, the tokens have the
characters of the text, in order and without the quotes that have a partner. In the other
direction, any phrases can be put in quotes and are found again.
-/

namespace SpeechGrammar.Text

/-- The tokens of a text whose quotes are paired from the left: in order, the words of what stands
outside the pairs, and what stands between the two quotes of a pair, trimmed, if it is not blank. -/
inductive SplitsInto : List Char → List (List Char) → Prop
  | unpaired {cs : List Char} (hcount : cs.count '"' ≤ 1) : SplitsInto cs (words cs)
  | phrase {outside inside rest : List Char} {tokens : List (List Char)} (houtside : '"' ∉ outside)
      (hinside : '"' ∉ inside) (hphrase : ¬ AllBlank inside) (hrest : SplitsInto rest tokens) :
      SplitsInto (outside ++ '"' :: (inside ++ '"' :: rest))
        (words outside ++ trim inside :: tokens)
  | blank {outside inside rest : List Char} {tokens : List (List Char)} (houtside : '"' ∉ outside)
      (hinside : '"' ∉ inside) (hblank : AllBlank inside) (hrest : SplitsInto rest tokens) :
      SplitsInto (outside ++ '"' :: (inside ++ '"' :: rest)) (words outside ++ tokens)

/-! ## Pairs of quotes -/

/-- Induction on a text by its first pair of quotes. -/
theorem quote_induction {motive : List Char → Prop}
    (unpaired : ∀ cs, cs.count '"' ≤ 1 → motive cs)
    (pair : ∀ outside inside rest, '"' ∉ outside → '"' ∉ inside → motive rest →
      motive (outside ++ '"' :: (inside ++ '"' :: rest))) (cs : List Char) : motive cs := by
  by_cases hfirst : '"' ∈ cs
  · obtain ⟨outside, more, hcs, houtside⟩ := List.eq_append_cons_of_mem hfirst
    by_cases hsecond : '"' ∈ more
    · obtain ⟨inside, rest, hmore, hinside⟩ := List.eq_append_cons_of_mem hsecond
      rw [hcs, hmore]
      exact pair outside inside rest houtside hinside (quote_induction unpaired pair rest)
    · refine unpaired cs ?_
      rw [hcs, List.count_append, List.count_cons_self, List.count_eq_zero_of_not_mem houtside,
        List.count_eq_zero_of_not_mem hsecond]
  · refine unpaired cs ?_
    rw [List.count_eq_zero_of_not_mem hfirst]
    omega
termination_by cs.length
decreasing_by
  rw [hcs, hmore]
  simp only [List.length_append, List.length_cons]
  omega

theorem tokenChars_of_count_le {cs : List Char} (h : cs.count '"' ≤ 1) :
    tokenChars cs = words cs := by
  by_cases hmem : '"' ∈ cs
  · obtain ⟨outside, rest, rfl, houtside⟩ := List.eq_append_cons_of_mem hmem
    have hrest : '"' ∉ rest := by
      rw [List.count_append, List.count_cons_self] at h
      exact List.count_eq_zero.1 (by omega)
    rw [tokenChars, List.splitOn_append_cons_self_of_not_mem houtside,
      List.splitOn_eq_singleton hrest, tokensOfPieces]
  · rw [tokenChars, List.splitOn_eq_singleton hmem, tokensOfPieces]

/-- The first pair of quotes gives the words before it and its phrase. -/
theorem tokenChars_pair {outside inside : List Char} (houtside : '"' ∉ outside)
    (hinside : '"' ∉ inside) (rest : List Char) :
    tokenChars (outside ++ '"' :: (inside ++ '"' :: rest)) =
      words outside ++ (phrase inside ++ tokenChars rest) := by
  obtain ⟨piece, pieces, hrest⟩ := List.exists_cons_of_ne_nil (List.splitOn_ne_nil '"' rest)
  rw [tokenChars, tokenChars, List.splitOn_append_cons_self_of_not_mem houtside,
    List.splitOn_append_cons_self_of_not_mem hinside, hrest, tokensOfPieces, List.append_assoc]
  exact List.cons_ne_nil piece pieces

theorem phrase_of_allBlank {cs : List Char} (h : AllBlank cs) : phrase cs = [] := by
  simp [phrase, trim_of_allBlank h]

theorem trim_ne_nil {cs : List Char} (h : ¬ AllBlank cs) : trim cs ≠ [] :=
  fun hnil => h (forall_of_trimBy_eq_nil hnil)

theorem phrase_of_not_allBlank {cs : List Char} (h : ¬ AllBlank cs) : phrase cs = [trim cs] := by
  simp [phrase, trim_ne_nil h]

/-- The tokens of a text are the ones that it splits into. -/
theorem splitsInto_iff {cs : List Char} {tokens : List (List Char)} :
    SplitsInto cs tokens ↔ tokens = tokenChars cs := by
  constructor
  · intro h
    induction h with
    | unpaired hcount => rw [tokenChars_of_count_le hcount]
    | phrase houtside hinside hphrase _ ih =>
        rw [tokenChars_pair houtside hinside, phrase_of_not_allBlank hphrase, ih,
          List.singleton_append]
    | blank houtside hinside hblank _ ih =>
        rw [tokenChars_pair houtside hinside, phrase_of_allBlank hblank, ih, List.nil_append]
  · rintro rfl
    induction cs using quote_induction with
    | unpaired cs hcount =>
        rw [tokenChars_of_count_le hcount]
        exact .unpaired hcount
    | pair outside inside rest houtside hinside ih =>
        rw [tokenChars_pair houtside hinside]
        by_cases hblank : AllBlank inside
        · rw [phrase_of_allBlank hblank, List.nil_append]
          exact .blank houtside hinside hblank ih
        · rw [phrase_of_not_allBlank hblank, List.singleton_append]
          exact .phrase houtside hinside hblank ih

/-! ## The scan for phrases -/

/-- What the expression `"[^"]*"` matches: a quote, anything but quotes, and a quote. -/
def IsQuoted (cs : List Char) : Prop := ∃ inside, '"' ∉ inside ∧ cs = '"' :: (inside ++ ['"'])

/-- The matches that a scan from the left finds one after the other, each with the text since the
one before it, and the text behind the last one. In the text that is left, no match begins before
the one that is found, and none that begins with it is longer. -/
inductive PhraseScan : List Char → List (List Char × List Char) → List Char → Prop
  | stop {cs : List Char} (hnone : ∀ m, IsQuoted m → ¬ m <:+: cs) : PhraseScan cs [] cs
  | next {before m rest last : List Char} {found : List (List Char × List Char)}
      (hmatch : IsQuoted m)
      (hfirst : ∀ before' m' rest', IsQuoted m' →
        before ++ (m ++ rest) = before' ++ (m' ++ rest') → before.length ≤ before'.length)
      (hlongest : ∀ m' rest', IsQuoted m' → m ++ rest = m' ++ rest' → m'.length ≤ m.length)
      (hrest : PhraseScan rest found last) :
      PhraseScan (before ++ (m ++ rest)) ((before, m) :: found) last

theorem IsQuoted.count_eq {m : List Char} (h : IsQuoted m) : m.count '"' = 2 := by
  obtain ⟨inside, hinside, rfl⟩ := h
  simp [List.count_eq_zero_of_not_mem hinside]

/-- Only one match begins at a place. -/
theorem IsQuoted.eq_of_append_eq {m m' rest rest' : List Char} (h : IsQuoted m) (h' : IsQuoted m')
    (heq : m ++ rest = m' ++ rest') : m = m' := by
  obtain ⟨inside, hinside, rfl⟩ := h
  obtain ⟨inside', hinside', rfl⟩ := h'
  simp only [List.cons_append, List.append_assoc, List.nil_append, List.cons.injEq, true_and] at heq
  have hsplit := congrArg (List.splitOn '"') heq
  rw [List.splitOn_append_cons_self_of_not_mem hinside,
    List.splitOn_append_cons_self_of_not_mem hinside'] at hsplit
  rw [(List.cons.inj hsplit).1]

/-- A quote with another one behind it begins a match. -/
theorem exists_isQuoted {before rest : List Char} (hbefore : '"' ∈ before) (hrest : '"' ∈ rest) :
    ∃ before' m rest', IsQuoted m ∧ before ++ rest = before' ++ (m ++ rest') ∧
      before'.length < before.length := by
  obtain ⟨before', more, rfl, -⟩ := List.eq_append_cons_of_mem hbefore
  obtain ⟨inside, rest', hmore, hinside⟩ :=
    List.eq_append_cons_of_mem (List.mem_append_right more hrest)
  refine ⟨before', '"' :: (inside ++ ['"']), rest', ⟨inside, hinside, rfl⟩, ?_, by simp⟩
  simp [hmore]

/-- Every text can be scanned. -/
theorem exists_phraseScan (cs : List Char) : ∃ found last, PhraseScan cs found last := by
  induction cs using quote_induction with
  | unpaired cs hcount =>
      refine ⟨[], cs, .stop fun m hm hinfix => ?_⟩
      have hle := hinfix.sublist.count_le '"'
      rw [hm.count_eq] at hle
      omega
  | pair outside inside rest houtside hinside ih =>
      obtain ⟨found, last, hrest⟩ := ih
      have hmatch : IsQuoted ('"' :: (inside ++ ['"'])) := ⟨inside, hinside, rfl⟩
      have hshape : outside ++ '"' :: (inside ++ '"' :: rest) =
          outside ++ ('"' :: (inside ++ ['"']) ++ rest) := by simp
      rw [hshape]
      refine ⟨_, last, .next hmatch ?_ ?_ hrest⟩
      · rintro before' m' rest' ⟨inside', -, rfl⟩ heq
        obtain ⟨gap, rfl, -⟩ | ⟨gap, rfl, hgap⟩ := List.append_eq_append_iff.1 heq
        · simp
        · -- An earlier match would begin with a quote in front of the pair.
          cases gap with
          | nil => simp
          | cons c gap =>
              obtain ⟨rfl, -⟩ := List.cons.inj hgap
              simp at houtside
      · intro m' rest' hm' heq
        rw [hmatch.eq_of_append_eq hm' heq]

/-- The tokens of a text are the words between the matches and what stands within them. -/
theorem tokenChars_of_phraseScan {cs last : List Char} {found : List (List Char × List Char)}
    (h : PhraseScan cs found last) :
    tokenChars cs =
      found.flatMap (fun entry => words entry.1 ++ phrase entry.2.tail.dropLast) ++ words last := by
  induction h with
  | @stop cs hnone =>
      rw [List.flatMap_nil, List.nil_append]
      cases cs using quote_induction with
      | unpaired cs hcount => exact tokenChars_of_count_le hcount
      | pair outside inside rest _ hinside _ =>
          refine (hnone _ ⟨inside, hinside, rfl⟩ ⟨outside, rest, ?_⟩).elim
          simp
  | @next before m rest last found hmatch hfirst _ _ ih =>
      have hbefore : '"' ∉ before := by
        intro hmem
        have hquote : '"' ∈ m ++ rest :=
          List.mem_append_left _ (List.count_pos_iff.1 (by rw [hmatch.count_eq]; decide))
        obtain ⟨before', m', rest', hm', heq, hlt⟩ := exists_isQuoted hmem hquote
        exact absurd (hfirst before' m' rest' hm' heq) (Nat.not_le.2 hlt)
      obtain ⟨inside, hinside, rfl⟩ := hmatch
      have hshape : before ++ ('"' :: (inside ++ ['"']) ++ rest) =
          before ++ '"' :: (inside ++ '"' :: rest) := by simp
      rw [hshape, tokenChars_pair hbefore hinside, ih]
      simp

/-! ## Tokens by themselves -/

theorem trim_of_isWord {w : List Char} (h : IsWord w) : trim w = w :=
  trimBy_eq_self (fun c hc => h.2 c (List.mem_of_mem_head? hc))
    fun c hc => h.2 c (List.mem_of_mem_getLast? hc)

theorem trim_trim (cs : List Char) : trim (trim cs) = trim cs :=
  trimBy_eq_self (trimBy_ends isBlank cs).1 (trimBy_ends isBlank cs).2

/-- No token is empty or has blanks at its ends. -/
theorem SplitsInto.trimmed {cs : List Char} {tokens : List (List Char)}
    (h : SplitsInto cs tokens) : ∀ token ∈ tokens, token ≠ [] ∧ trim token = token := by
  have hwords : ∀ cs, ∀ w ∈ words cs, w ≠ [] ∧ trim w = w := fun cs w hw =>
    ⟨(isWord_of_mem_words hw).1, trim_of_isWord (isWord_of_mem_words hw)⟩
  induction h with
  | @unpaired cs _ => exact hwords cs
  | @phrase outside inside _ _ _ _ hphrase _ ih =>
      refine List.forall_mem_append.2 ⟨hwords outside, List.forall_mem_cons.2 ⟨?_, ih⟩⟩
      exact ⟨trim_ne_nil hphrase, trim_trim inside⟩
  | @blank outside _ _ _ _ _ _ _ ih => exact List.forall_mem_append.2 ⟨hwords outside, ih⟩

/-! ## Nothing is lost -/

/-- The characters of a text that are not blank. -/
def withoutBlanks (cs : List Char) : List Char := cs.filter fun c => !isBlank c

theorem withoutBlanks_append (xs ys : List Char) :
    withoutBlanks (xs ++ ys) = withoutBlanks xs ++ withoutBlanks ys := List.filter_append ..

theorem withoutBlanks_of_allBlank {cs : List Char} (h : AllBlank cs) : withoutBlanks cs = [] :=
  List.filter_eq_nil_iff.2 fun c hc => by simp [h c hc]

theorem withoutBlanks_trim (cs : List Char) : withoutBlanks (trim cs) = withoutBlanks cs := by
  obtain ⟨lead, trail, hlead, htrail, hcs⟩ := exists_eq_append_trimBy isBlank cs
  conv_rhs => rw [hcs]
  rw [withoutBlanks_append, withoutBlanks_append, withoutBlanks_of_allBlank hlead,
    withoutBlanks_of_allBlank htrail, List.nil_append, List.append_nil]
  rfl

/-- The words of a text are what is left of it without blanks. -/
theorem flatten_words (cs : List Char) : (words cs).flatten = withoutBlanks cs := by
  induction cs using text_induction with
  | nil => rfl
  | blank c cs hc ih => simp [words_cons_of_blank hc, ih, withoutBlanks, hc]
  | last c hc => simp [words_of_isWord (isWord_singleton hc), withoutBlanks, hc]
  | wordEnd c d cs hc hd ih _ => simp [words_cons_blank_cons hc hd, ih, withoutBlanks, hc, hd]
  | inWord c d cs hc hd ih =>
      obtain ⟨w, ws, hdcs, hcdcs⟩ := words_cons_cons hc hd cs
      rw [hdcs] at ih
      rw [hcdcs, withoutBlanks, List.filter_cons_of_pos (by simp [hc])]
      exact congrArg (c :: ·) ih

theorem withoutBlanks_flatten_words (cs : List Char) :
    withoutBlanks (words cs).flatten = withoutBlanks cs := by
  rw [flatten_words, withoutBlanks, withoutBlanks, List.filter_filter]
  simp

/-- The text without its first quotes, as many as have a partner. -/
def withoutPairedQuotes (cs : List Char) : List Char :=
  cs.diff (List.replicate (2 * (cs.count '"' / 2)) '"')

theorem diff_replicate_append {c : Char} {xs : List Char} (h : c ∉ xs) (ys : List Char) (n : Nat) :
    (xs ++ ys).diff (List.replicate n c) = xs ++ ys.diff (List.replicate n c) := by
  induction n generalizing ys with
  | zero => rfl
  | succ n ih =>
      rw [List.replicate_succ, List.diff_cons, List.diff_cons, List.erase_append_right _ h, ih]

/-- Of a text with a pair of quotes, this pair goes and what is in front of its end stays. -/
theorem withoutPairedQuotes_pair {outside inside : List Char} (houtside : '"' ∉ outside)
    (hinside : '"' ∉ inside) (rest : List Char) :
    withoutPairedQuotes (outside ++ '"' :: (inside ++ '"' :: rest)) =
      outside ++ (inside ++ withoutPairedQuotes rest) := by
  have hcount : (outside ++ '"' :: (inside ++ '"' :: rest)).count '"' = rest.count '"' + 2 := by
    rw [List.count_append, List.count_cons_self, List.count_append, List.count_cons_self,
      List.count_eq_zero_of_not_mem houtside, List.count_eq_zero_of_not_mem hinside]
    omega
  have hpaired : 2 * ((rest.count '"' + 2) / 2) = 2 * (rest.count '"' / 2) + 1 + 1 := by omega
  rw [withoutPairedQuotes, hcount, hpaired, List.replicate_succ, List.diff_cons,
    List.erase_append_right _ houtside, List.erase_cons_head, List.replicate_succ, List.diff_cons,
    List.erase_append_right _ houtside, List.erase_append_right _ hinside, List.erase_cons_head,
    diff_replicate_append houtside, diff_replicate_append hinside, withoutPairedQuotes]

theorem count_withoutPairedQuotes (cs : List Char) :
    (withoutPairedQuotes cs).count '"' = cs.count '"' % 2 := by
  rw [withoutPairedQuotes, List.count_diff, List.count_replicate_self]
  omega

/-- But for blanks, the tokens of a text have its characters, without the quotes that have a
partner. -/
theorem SplitsInto.withoutBlanks_flatten {cs : List Char} {tokens : List (List Char)}
    (h : SplitsInto cs tokens) :
    withoutBlanks tokens.flatten = withoutBlanks (withoutPairedQuotes cs) := by
  induction h with
  | @unpaired cs hcount =>
      have hnone : 2 * (cs.count '"' / 2) = 0 := by omega
      rw [withoutBlanks_flatten_words, withoutPairedQuotes, hnone]
      rfl
  | @phrase outside inside rest tokens houtside hinside _ _ ih =>
      rw [withoutPairedQuotes_pair houtside hinside, List.flatten_append, List.flatten_cons]
      simp only [withoutBlanks_append, withoutBlanks_flatten_words, withoutBlanks_trim, ih]
  | @blank outside inside rest tokens houtside hinside hblank _ ih =>
      rw [withoutPairedQuotes_pair houtside hinside, List.flatten_append]
      simp only [withoutBlanks_append, withoutBlanks_flatten_words,
        withoutBlanks_of_allBlank hblank, List.nil_append, ih]

theorem count_withoutBlanks (cs : List Char) : (withoutBlanks cs).count '"' = cs.count '"' :=
  List.count_filter (by simp [isBlank_quote])

/-- Only a quote without a partner is left in the tokens. -/
theorem SplitsInto.count_flatten {cs : List Char} {tokens : List (List Char)}
    (h : SplitsInto cs tokens) : tokens.flatten.count '"' = cs.count '"' % 2 := by
  rw [← count_withoutBlanks, h.withoutBlanks_flatten, count_withoutBlanks,
    count_withoutPairedQuotes]

/-! ## Phrases in quotes -/

/-- Phrases in quotes, each with what stands in front of it. -/
def quotePhrases (phrases : List (List Char × String)) : List Char :=
  phrases.flatMap fun entry => entry.1 ++ '"' :: (entry.2.toList ++ ['"'])

/-- Phrases in quotes with blanks around them are found again. -/
theorem tokenChars_quotePhrases {phrases : List (List Char × String)} {trail : List Char}
    (hphrases : ∀ entry ∈ phrases, AllBlank entry.1 ∧ entry.2 ≠ "" ∧
      trim entry.2.toList = entry.2.toList ∧ '"' ∉ entry.2.toList) (htrail : AllBlank trail) :
    tokenChars (quotePhrases phrases ++ trail) = phrases.map fun entry => entry.2.toList := by
  induction phrases with
  | nil =>
      have hcount : trail.count '"' = 0 := List.count_eq_zero_of_not_mem htrail.notMem_quote
      rw [quotePhrases, List.flatMap_nil, List.nil_append, tokenChars_of_count_le (by omega),
        words_eq_nil_of_allBlank htrail, List.map_nil]
  | cons entry phrases ih =>
      rw [List.forall_mem_cons] at hphrases
      obtain ⟨⟨hgap, hne, htrim, hquote⟩, hmore⟩ := hphrases
      have hphrase : phrase entry.2.toList = [entry.2.toList] := by
        simpa [phrase, htrim] using hne
      have htext : quotePhrases (entry :: phrases) ++ trail =
          entry.1 ++ '"' :: (entry.2.toList ++ '"' :: (quotePhrases phrases ++ trail)) := by
        simp [quotePhrases]
      rw [htext, tokenChars_pair hgap.notMem_quote hquote, words_eq_nil_of_allBlank hgap, hphrase,
        ih hmore, List.nil_append, List.singleton_append, List.map_cons]

/-! ## Texts -/

theorem map_toList_splitTokens (s : String) :
    (splitTokens s).map String.toList = tokenChars s.toList := by
  simp [splitTokens, Function.comp_def]

/-- Splitting a text is scanning it for phrases: the words between the matches are tokens, and so is
what stands within a match, trimmed, if it is not blank. -/
theorem splitTokens_eq_of_phraseScan (s : String) :
    ∃ found last, PhraseScan s.toList found last ∧
      splitTokens s = (found.flatMap (fun entry =>
        words entry.1 ++ phrase entry.2.tail.dropLast) ++ words last).map String.ofList := by
  obtain ⟨found, last, hscan⟩ := exists_phraseScan s.toList
  exact ⟨found, last, hscan, by rw [splitTokens, tokenChars_of_phraseScan hscan]⟩

/-- The tokens of a text are the words outside its paired quotes and the phrases within them, and
nothing else splits it. None is empty or has blanks at its ends. Together they have, but for blanks,
the characters of the text without the quotes that have a partner, so a quote is left, and then one,
if the number of quotes is odd. Phrases without quotes and without blanks at their ends, each put in
quotes, are found again, whatever blanks stand between them. -/
theorem splitTokens_lossless :
    (∀ s : String,
      (∀ tokens, SplitsInto s.toList tokens ↔ tokens = (splitTokens s).map String.toList) ∧
      (∀ token ∈ splitTokens s, token ≠ "" ∧ trim token.toList = token.toList) ∧
      withoutBlanks ((splitTokens s).flatMap String.toList) =
        withoutBlanks (withoutPairedQuotes s.toList) ∧
      ((splitTokens s).flatMap String.toList).count '"' = s.toList.count '"' % 2) ∧
    ∀ (phrases : List (List Char × String)) (trail : List Char), AllBlank trail →
      (∀ entry ∈ phrases, AllBlank entry.1 ∧ entry.2 ≠ "" ∧
        trim entry.2.toList = entry.2.toList ∧ '"' ∉ entry.2.toList) →
      splitTokens (String.ofList (quotePhrases phrases ++ trail)) = phrases.map Prod.snd := by
  constructor
  · intro s
    have hsplits : SplitsInto s.toList ((splitTokens s).map String.toList) := by
      rw [map_toList_splitTokens, splitsInto_iff]
    refine ⟨fun tokens => ?_, fun token htoken => ?_, hsplits.withoutBlanks_flatten,
      hsplits.count_flatten⟩
    · rw [map_toList_splitTokens, splitsInto_iff]
    · obtain ⟨hne, htrim⟩ := hsplits.trimmed _ (List.mem_map_of_mem htoken)
      exact ⟨by simpa using hne, htrim⟩
  · intro phrases trail htrail hphrases
    rw [splitTokens, String.toList_ofList, tokenChars_quotePhrases hphrases htrail]
    simp [Function.comp_def]

example : splitTokens "a\"b  c\"d \"e" = ["a", "b  c", "d", "\"e"] := by decide +kernel

/-- Two cities, glued to the word between them on one side only. -/
def cityPhrases : List (List Char × String) :=
  [([], "New  York"), ([], "or"), ([' ', '\t'], "Los Angeles")]

theorem splitTokens_lossless_cityPhrases :
    AllBlank ['\n'] ∧
      (∀ entry ∈ cityPhrases, AllBlank entry.1 ∧ entry.2 ≠ "" ∧
        trim entry.2.toList = entry.2.toList ∧ '"' ∉ entry.2.toList) ∧
      splitTokens (String.ofList (quotePhrases cityPhrases ++ ['\n'])) =
        ["New  York", "or", "Los Angeles"] := by
  have htrail : AllBlank ['\n'] := by decide
  have hphrases : ∀ entry ∈ cityPhrases, AllBlank entry.1 ∧ entry.2 ≠ "" ∧
      trim entry.2.toList = entry.2.toList ∧ '"' ∉ entry.2.toList := by
    decide
  exact ⟨htrail, hphrases, splitTokens_lossless.2 cityPhrases _ htrail hphrases⟩

end SpeechGrammar.Text
