import Mathlib.Data.List.DropRight
import SpeechGrammar.Markup.Entity
import SpeechGrammar.Proofs.Text.Phrases

set_option autoImplicit false

/-!
# Escaped text is read back

Escaping leaves no character that ends a run of text or a quoted value, and the reader replaces
the entities by the characters that they were written for (`unescape?_escape`). An XML blank is not
escaped and an entity is not blank, so the blanks at the ends of a text can be removed before or
after escaping (`trimXml_escape`).
-/

namespace SpeechGrammar.Markup

open Text

/-- Remove the XML blanks from both ends, as the reader does. -/
def trimXml (cs : List Char) : List Char := trimBy isXmlBlank cs

/-- The characters that are never written as they are. -/
def reserved : List Char := ['<', '>', '&', '\x27', '"']

/-- A character is written as it is, or as an entity whose name consists of letters. -/
theorem escapeChar_eq (c : Char) :
    (c ∉ reserved ∧ escapeChar c = [c]) ∨
      c ∈ reserved ∧ ∃ name, escapeChar c = '&' :: (name ++ [';']) ∧
        (∀ d ∈ name, d.isAlpha = true) ∧ entity? name = some c := by
  unfold escapeChar
  split
  · exact .inr ⟨by decide, "lt".toList, rfl, by simp, rfl⟩
  · exact .inr ⟨by decide, "gt".toList, rfl, by simp, rfl⟩
  · exact .inr ⟨by decide, "amp".toList, rfl, by simp, rfl⟩
  · exact .inr ⟨by decide, "apos".toList, rfl, by simp, rfl⟩
  · exact .inr ⟨by decide, "quot".toList, rfl, by simp, rfl⟩
  · exact .inl ⟨by simp_all [reserved], rfl⟩

/-- Every reserved character but the ampersand is gone once a text is escaped. -/
theorem notMem_escape {d : Char} (hd : d ∈ reserved) (hamp : d ≠ '&') (cs : List Char) :
    d ∉ escape cs := by
  rw [escape, List.mem_flatMap]
  rintro ⟨c, -, hmem⟩
  obtain ⟨hnot, hc⟩ | ⟨-, name, hc, hname, -⟩ := escapeChar_eq c
  · rw [hc, List.mem_singleton] at hmem
    exact hnot (hmem ▸ hd)
  · rw [hc, List.mem_cons, List.mem_append, List.mem_singleton] at hmem
    have halpha : d.isAlpha = false ∧ d ≠ ';' :=
      (by simp [reserved] : ∀ d ∈ reserved, d.isAlpha = false ∧ d ≠ ';') d hd
    rcases hmem with h | h | h
    · exact hamp h
    · exact absurd (hname d h) (by simp [halpha.1])
    · exact halpha.2 h

@[simp] theorem escape_nil : escape [] = [] := rfl

theorem escape_cons (c : Char) (cs : List Char) : escape (c :: cs) = escapeChar c ++ escape cs := by
  rw [escape, List.flatMap_cons, escape]

theorem escape_append (xs ys : List Char) : escape (xs ++ ys) = escape xs ++ escape ys :=
  List.flatMap_append

/-! ## Entities -/

/-- Text without an ampersand stands for itself. -/
theorem unescape?_append {plain : List Char} (h : '&' ∉ plain) (cs : List Char) :
    unescape? (plain ++ cs) = (unescape? cs).map (plain ++ ·) := by
  obtain ⟨piece, pieces, hcs, happend⟩ := splitOn_append_left h cs
  rw [unescape?, unescape?, hcs, happend]
  simp [Function.comp_def]

/-- What is put behind a piece that has its entity already is plain. -/
theorem afterAmpersand?_append {piece text : List Char} (h : afterAmpersand? piece = some text)
    (cs : List Char) : afterAmpersand? (piece ++ cs) = some (text ++ cs) := by
  unfold afterAmpersand? at h
  split at h
  · cases h
  · rename_i c rest hdrop
    have htake : (piece ++ cs).takeWhile (· != ';') = piece.takeWhile (· != ';') := by
      have hlength := congrArg List.length
        (List.takeWhile_append_dropWhile (p := (· != ';')) (l := piece))
      rw [hdrop, List.length_append, List.length_cons] at hlength
      rw [List.takeWhile_append, if_neg (by omega)]
    obtain ⟨d, hd, rfl⟩ := Option.map_eq_some_iff.1 h
    rw [afterAmpersand?, List.dropWhile_append, hdrop, htake, hd]
    rfl

/-- Two texts can be unescaped each by itself. -/
theorem unescape?_append_eq_some {xs ys text rest : List Char} (hxs : unescape? xs = some text)
    (hys : unescape? ys = some rest) : unescape? (xs ++ ys) = some (text ++ rest) := by
  obtain ⟨pieces, last, first, more, hxs', hys', happend⟩ := splitOn_append xs ys '&'
  rw [unescape?, hys'] at hys
  obtain ⟨tails, htails, rfl⟩ := Option.map_eq_some_iff.1 hys
  cases pieces with
  | nil =>
      rw [unescape?, hxs'] at hxs
      cases hxs
      rw [unescape?, happend]
      simp [htails]
  | cons plain pieces =>
      rw [unescape?, hxs', List.cons_append] at hxs
      simp only [List.mapM_append, List.mapM_cons, List.mapM_nil, Option.map_eq_some_iff,
        Option.bind_eq_bind, Option.bind_eq_some_iff, Option.pure_def, Option.some.injEq] at hxs
      obtain ⟨_, ⟨heads, hheads, _, ⟨entity, hentity, _, rfl, rfl⟩, rfl⟩, rfl⟩ := hxs
      rw [unescape?, happend, List.cons_append]
      simp [hheads, htails, afterAmpersand?_append hentity]

/-- An entity stands for its character. -/
theorem unescape?_entity {name : List Char} {c : Char} (hname : ∀ d ∈ name, d.isAlpha = true)
    (hc : entity? name = some c) (cs : List Char) :
    unescape? ('&' :: (name ++ [';']) ++ cs) = (unescape? cs).map (c :: ·) := by
  have hamp : '&' ∉ name ++ [';'] := by
    simp only [List.mem_append, List.mem_singleton, not_or]
    exact ⟨fun h => absurd (hname _ h) (by decide), by decide⟩
  have hsemi : ∀ d ∈ name, (d != ';') = true := by
    intro d hd
    rw [bne_iff_ne]
    rintro rfl
    exact absurd (hname _ hd) (by decide)
  obtain ⟨piece, pieces, hcs, happend⟩ := splitOn_append_left hamp cs
  have hsplit : ('&' :: (name ++ [';']) ++ cs).splitOn '&' =
      [] :: (name ++ [';'] ++ piece) :: pieces := by
    have hnil : '&' ∉ ([] : List Char) := List.not_mem_nil
    rw [← happend]
    exact List.splitOn_append_cons_self_of_not_mem hnil _
  have hpiece : afterAmpersand? (name ++ ';' :: piece) = some (c :: piece) := by
    rw [afterAmpersand?, List.dropWhile_append_of_pos hsemi, List.takeWhile_append_of_pos hsemi]
    simp [hc]
  rw [unescape?, unescape?, hsplit, hcs]
  simp only [List.append_assoc, List.singleton_append, List.mapM_cons, hpiece]
  cases pieces.mapM afterAmpersand? with
  | none => rfl
  | some ps => rfl

/-- Unescaping undoes escaping. -/
theorem unescape?_escape (cs : List Char) : unescape? (escape cs) = some cs := by
  induction cs with
  | nil => decide
  | cons c cs ih =>
      rw [escape_cons]
      obtain ⟨hnot, hc⟩ | ⟨-, name, hc, hname, hentity⟩ := escapeChar_eq c
      · have hamp : '&' ∉ [c] := by
          rw [List.mem_singleton]
          rintro rfl
          exact hnot (by decide)
        rw [hc, unescape?_append hamp, ih]
        rfl
      · rw [hc, unescape?_entity hname hentity, ih]
        rfl

theorem escape_eq_nil_iff {cs : List Char} : escape cs = [] ↔ cs = [] := by
  refine ⟨fun h => ?_, fun h => by rw [h, escape_nil]⟩
  have hcs := unescape?_escape cs
  rw [h, ← escape_nil, unescape?_escape, Option.some.injEq] at hcs
  exact hcs.symm

/-! ## Blanks at the ends -/

theorem escapeChar_of_isXmlBlank {c : Char} (h : isXmlBlank c = true) : escapeChar c = [c] := by
  obtain ⟨-, hc⟩ | ⟨hmem, -⟩ := escapeChar_eq c
  · exact hc
  · have hnot : isXmlBlank c = false :=
      (by simp [reserved, isXmlBlank] : ∀ d ∈ reserved, isXmlBlank d = false) c hmem
    rw [hnot] at h
    cases h

/-- What is written for a character that is not blank begins and ends with no blank. -/
theorem escapeChar_ends {c : Char} (h : isXmlBlank c = false) :
    (∃ d ds, escapeChar c = d :: ds ∧ isXmlBlank d = false) ∧
      ∃ ds d, escapeChar c = ds ++ [d] ∧ isXmlBlank d = false := by
  obtain ⟨-, hc⟩ | ⟨-, name, hc, -⟩ := escapeChar_eq c
  · exact ⟨⟨c, [], hc, h⟩, [], c, hc, h⟩
  · exact ⟨⟨'&', _, hc, by decide⟩, '&' :: name, ';', hc, by decide⟩

theorem dropWhile_escape (cs : List Char) :
    (escape cs).dropWhile isXmlBlank = escape (cs.dropWhile isXmlBlank) := by
  induction cs with
  | nil => rfl
  | cons c cs ih =>
      by_cases hc : isXmlBlank c = true
      · rw [escape_cons, escapeChar_of_isXmlBlank hc, List.singleton_append,
          List.dropWhile_cons_of_pos hc, List.dropWhile_cons_of_pos hc, ih]
      · obtain ⟨⟨d, ds, hds, hd⟩, -⟩ := escapeChar_ends (by simpa using hc)
        rw [List.dropWhile_cons_of_neg hc, escape_cons, hds, List.cons_append,
          List.dropWhile_cons_of_neg (by simp [hd])]

theorem trimXmlEnd_concat (cs : List Char) (c : Char) :
    trimXmlEnd (cs ++ [c]) = if isXmlBlank c then trimXmlEnd cs else cs ++ [c] :=
  List.rdropWhile_concat isXmlBlank cs c

theorem trimXmlEnd_escape (cs : List Char) : trimXmlEnd (escape cs) = escape (trimXmlEnd cs) := by
  induction cs using List.reverseRecOn with
  | nil => rfl
  | append_singleton cs c ih =>
      rw [escape_append, escape_cons, escape_nil, List.append_nil, trimXmlEnd_concat]
      by_cases hc : isXmlBlank c = true
      · rw [escapeChar_of_isXmlBlank hc, trimXmlEnd_concat, if_pos hc, if_pos hc, ih]
      · obtain ⟨-, ds, d, hds, hd⟩ := escapeChar_ends (by simpa using hc)
        rw [if_neg hc, hds, ← List.append_assoc, trimXmlEnd_concat, if_neg (by simp [hd]),
          List.append_assoc, ← hds, escape_append, escape_cons, escape_nil, List.append_nil]

/-- Trimming an escaped text is trimming the text. -/
theorem trimXml_escape (cs : List Char) : trimXml (escape cs) = escape (trimXml cs) := by
  show trimXmlEnd ((escape cs).dropWhile isXmlBlank) = _
  rw [dropWhile_escape, trimXmlEnd_escape]
  rfl

theorem isBlank_of_isXmlBlank {c : Char} (h : isXmlBlank c = true) : isBlank c = true := by
  simp only [isXmlBlank, Bool.or_eq_true, beq_iff_eq] at h
  rcases h with ((rfl | rfl) | rfl) | rfl <;> decide

theorem words_trimXml (cs : List Char) : words (trimXml cs) = words cs :=
  words_trimBy (fun _ h => isBlank_of_isXmlBlank h) cs

theorem tokenChars_trimXml (cs : List Char) : tokenChars (trimXml cs) = tokenChars cs :=
  tokenChars_trimBy (fun _ h => isBlank_of_isXmlBlank h) cs

/-- A text in normal form has no blanks at its ends. -/
theorem trimXml_normalizeChars (cs : List Char) :
    trimXml (normalizeChars cs) = normalizeChars cs := by
  have hnot : ∀ c, isBlank c = false → isXmlBlank c = false := by
    intro c hc
    rw [Bool.eq_false_iff]
    intro hxml
    rw [isBlank_of_isXmlBlank hxml] at hc
    cases hc
  exact trimBy_eq_self (fun c hc => hnot c ((normalizeChars_ends cs).1 c hc))
    fun c hc => hnot c ((normalizeChars_ends cs).2 c hc)

end SpeechGrammar.Markup
