import SpeechGrammar.Fingerprint.Json
import SpeechGrammar.Proofs.Text.Decimal

set_option autoImplicit false

/-!
# Compact JSON is read back

A reader of JSON texts, and that it reads every value back from its written form (`read?_render`).
So two values that are written alike are the same value (`render_injective`), and a written form
is one line: there is no control character in it (`printable_render`).

The reader takes any JSON text, with white space and all escapes, as far as its values go: numbers
are whole, and the four digits of an escape are not those of a surrogate. It returns what follows
the value, so a number has to be followed by something that is not a digit.
-/

namespace SpeechGrammar.Json

open Text

/-! ## A reader -/

/-- A character of the white space between the parts of a text. -/
def isGap (c : Char) : Bool := c == ' ' || c == '\t' || c == '\n' || c == '\r'

/-- The text behind the white space at its start. -/
def skipGap (cs : List Char) : List Char := cs.dropWhile isGap

/-- The character that a letter behind a backslash stands for. -/
def unescapeLetter? (c : Char) : Option Char :=
  match c with
  | '"' | '\\' | '/' => some c
  | 'b' => some '\x08'
  | 'f' => some '\x0c'
  | 'n' => some '\n'
  | 'r' => some '\r'
  | 't' => some '\t'
  | _ => none

/-- The character with the number that hexadecimal digits write. -/
def unescapeNumber? (digits : List Char) : Option Char :=
  (readDigits? 16 digits).bind fun n => if n.isValidChar then some (Char.ofNat n) else none

/-- The characters of a string behind its opening quote, and what follows the closing one. -/
def readString? : List Char → Option (List Char × List Char)
  | [] => none
  | '"' :: rest => some ([], rest)
  | '\\' :: 'u' :: a :: b :: c :: d :: rest =>
      (unescapeNumber? [a, b, c, d]).bind fun e => (readString? rest).map (Prod.map (e :: ·) id)
  | '\\' :: c :: rest =>
      (unescapeLetter? c).bind fun e => (readString? rest).map (Prod.map (e :: ·) id)
  | c :: rest =>
      if c = '\\' ∨ c.toNat < 0x20 then none else (readString? rest).map (Prod.map (c :: ·) id)

/-- A number without leading zeros, and what follows its digits. -/
def readNatural? (cs : List Char) : Option (Nat × List Char) :=
  let digits := cs.takeWhile Char.isDigit
  if 1 < digits.length ∧ digits.head? = some '0' then none
  else (readDigits? 10 digits).map (·, cs.dropWhile Char.isDigit)

/-- A whole number, and what follows it. -/
def readInteger? : List Char → Option (Int × List Char)
  | '-' :: cs => (readNatural? cs).map (Prod.map (fun n : Nat => -(n : Int)) id)
  | cs => (readNatural? cs).map (Prod.map (fun n : Nat => (n : Int)) id)

mutual

/-- A value, and what follows it. -/
def readValue? : (fuel : Nat) → List Char → Option (Json × List Char)
  | 0, _ => none
  | fuel + 1, cs =>
      match skipGap cs with
      | 'n' :: 'u' :: 'l' :: 'l' :: rest => some (.null, rest)
      | 't' :: 'r' :: 'u' :: 'e' :: rest => some (.bool true, rest)
      | 'f' :: 'a' :: 'l' :: 's' :: 'e' :: rest => some (.bool false, rest)
      | '"' :: rest => (readString? rest).map (Prod.map (fun s => .string (String.ofList s)) id)
      | '[' :: rest => (readItems? fuel rest).map (Prod.map .array id)
      | '\x7b' :: rest => (readEntries? fuel rest).map (Prod.map .object id)
      | cs => (readInteger? cs).map (Prod.map .int id)

/-- The items of an array behind its bracket. -/
def readItems? : (fuel : Nat) → List Char → Option (List Json × List Char)
  | 0, _ => none
  | fuel + 1, cs =>
      match skipGap cs with
      | ']' :: rest => some ([], rest)
      | cs =>
          (readValue? fuel cs).bind fun (item, rest) =>
            (readMoreItems? fuel rest).map (Prod.map (item :: ·) id)

/-- The items of an array behind an item. -/
def readMoreItems? : (fuel : Nat) → List Char → Option (List Json × List Char)
  | 0, _ => none
  | fuel + 1, cs =>
      match skipGap cs with
      | ']' :: rest => some ([], rest)
      | ',' :: rest =>
          (readValue? fuel rest).bind fun (item, rest) =>
            (readMoreItems? fuel rest).map (Prod.map (item :: ·) id)
      | _ => none

/-- The entries of an object behind its brace. -/
def readEntries? : (fuel : Nat) → List Char → Option (List (String × Json) × List Char)
  | 0, _ => none
  | fuel + 1, cs =>
      match skipGap cs with
      | '\x7d' :: rest => some ([], rest)
      | cs =>
          (readPair? fuel cs).bind fun (entry, rest) =>
            (readMoreEntries? fuel rest).map (Prod.map (entry :: ·) id)

/-- The entries of an object behind an entry. -/
def readMoreEntries? : (fuel : Nat) → List Char → Option (List (String × Json) × List Char)
  | 0, _ => none
  | fuel + 1, cs =>
      match skipGap cs with
      | '\x7d' :: rest => some ([], rest)
      | ',' :: rest =>
          (readPair? fuel rest).bind fun (entry, rest) =>
            (readMoreEntries? fuel rest).map (Prod.map (entry :: ·) id)
      | _ => none

/-- An entry of an object: a key, a colon and a value. -/
def readPair? : (fuel : Nat) → List Char → Option ((String × Json) × List Char)
  | 0, _ => none
  | fuel + 1, cs =>
      match skipGap cs with
      | '"' :: rest =>
          (readString? rest).bind fun (key, rest) =>
            match skipGap rest with
            | ':' :: rest =>
                (readValue? fuel rest).map (Prod.map (fun value => (String.ofList key, value)) id)
            | _ => none
      | _ => none

end

/-- The value that a text writes. A step of the reader passes a character, or goes from a list to
its next member. -/
def read? (cs : List Char) : Option Json :=
  match readValue? (2 * cs.length) cs with
  | some (value, rest) => if (skipGap rest).isEmpty then some value else none
  | none => none

/-! ## Strings -/

/-- The characters with an escape of their own, and what the escape has behind its backslash. -/
def shortEscapes : List (Char × Char) :=
  [('"', '"'), ('\\', '\\'), ('\x08', 'b'), ('\x0c', 'f'), ('\n', 'n'), ('\r', 'r'), ('\t', 't')]

/-- A character has an escape of its own, or is a control that is written by its number, or is
written as it is. -/
theorem escapeChar_cases (c : Char) :
    (∃ e, (c, e) ∈ shortEscapes ∧ escapeChar c = ['\\', e]) ∨
      (c.toNat < 0x20 ∧ escapeChar c = ['\\', 'u', '0', '0', Nat.digitChar (c.toNat / 16),
        Nat.digitChar (c.toNat % 16)]) ∨
      (c ≠ '"' ∧ c ≠ '\\' ∧ 0x20 ≤ c.toNat ∧ escapeChar c = [c]) := by
  unfold escapeChar
  split
  · exact .inl ⟨'"', by decide, rfl⟩
  · exact .inl ⟨'\\', by decide, rfl⟩
  · exact .inl ⟨'b', by decide, rfl⟩
  · exact .inl ⟨'f', by decide, rfl⟩
  · exact .inl ⟨'n', by decide, rfl⟩
  · exact .inl ⟨'r', by decide, rfl⟩
  · exact .inl ⟨'t', by decide, rfl⟩
  · rename_i hquote hbackslash _ _ _ _ _
    split
    · rename_i hcontrol
      exact .inr (.inl ⟨hcontrol, rfl⟩)
    · rename_i hcontrol
      exact .inr (.inr ⟨hquote, hbackslash, Nat.le_of_not_lt hcontrol, rfl⟩)

/-- An escape of its own is read back, and is not taken for a number. -/
theorem unescapeLetter?_shortEscapes : ∀ entry ∈ shortEscapes,
    unescapeLetter? entry.2 = some entry.1 ∧ entry.2 ≠ 'u' ∧ 0x20 ≤ entry.2.toNat := by
  decide

theorem unescapeNumber?_control : ∀ n < 0x20,
    unescapeNumber? ['0', '0', Nat.digitChar (n / 16), Nat.digitChar (n % 16)] =
      some (Char.ofNat n) := by
  decide

/-- What is written for a character is read as this character. -/
theorem readString?_escapeChar (c : Char) (rest : List Char) :
    readString? (escapeChar c ++ rest) = (readString? rest).map (Prod.map (c :: ·) id) := by
  obtain ⟨e, he, hc⟩ | ⟨hcontrol, hc⟩ | ⟨hquote, hbackslash, hprintable, hc⟩ := escapeChar_cases c
  · obtain ⟨hread, hnumber, -⟩ := unescapeLetter?_shortEscapes _ he
    rw [hc, List.cons_append, List.cons_append, List.nil_append, readString?]
    · rw [hread, Option.bind_some]
    · rintro _ _ _ _ _ rfl
      exact absurd rfl hnumber
  · rw [hc]
    simp only [List.cons_append, List.nil_append, readString?]
    rw [unescapeNumber?_control _ hcontrol, Option.bind_some, Char.ofNat_toNat]
  · rw [hc, List.singleton_append, readString?]
    · rw [if_neg (not_or.2 ⟨hbackslash, Nat.not_lt.2 hprintable⟩)]
    · exact fun h => hquote h
    · exact fun _ _ _ _ _ h _ => hbackslash h
    · exact fun _ _ h _ => hbackslash h

/-- A string is read back. -/
theorem readString?_quote (s : String) (rest : List Char) :
    readString? ((s.toList.flatMap escapeChar ++ ['"']) ++ rest) = some (s.toList, rest) := by
  induction s.toList with
  | nil => rfl
  | cons c cs ih =>
      rw [List.flatMap_cons, List.append_assoc, List.append_assoc, readString?_escapeChar,
        ← List.append_assoc, ih]
      rfl

/-! ## Numbers -/

/-- The text does not go on with a digit. -/
def EndsNumber (xs : List Char) : Prop := ∀ c ∈ xs.head?, c.isDigit = false

theorem EndsNumber.cons {c : Char} (h : c.isDigit = false) (xs : List Char) :
    EndsNumber (c :: xs) := by
  simpa [EndsNumber] using h

/-- The digits of a number do not begin with a zero, unless there is nothing else. -/
theorem head?_toDigits (n : Nat) (h : (Nat.toDigits 10 n).head? = some '0') : n = 0 := by
  induction n using Nat.strongRecOn with
  | ind n ih =>
      have hdigit : ∀ d < 10, Nat.digitChar d = '0' → d = 0 := by decide
      rw [Nat.toDigits_eq_if (by decide)] at h
      by_cases hn : n < 10
      · rw [if_pos hn] at h
        exact hdigit n hn (Option.some.inj h)
      · rw [if_neg hn, List.head?_append_of_ne_nil _ Nat.toDigits_ne_nil] at h
        have := ih (n / 10) (by omega) h
        omega

theorem readNatural?_toDigits (n : Nat) {rest : List Char} (hrest : EndsNumber rest) :
    readNatural? (Nat.toDigits 10 n ++ rest) = some (n, rest) := by
  have hdigits : ∀ c ∈ Nat.toDigits 10 n, c.isDigit = true := fun c hc =>
    Nat.isDigit_of_mem_toDigits (by decide) (by decide) hc
  have hnone : rest.takeWhile Char.isDigit = [] ∧ rest.dropWhile Char.isDigit = rest := by
    cases rest with
    | nil => exact ⟨rfl, rfl⟩
    | cons c rest => simp [hrest c rfl]
  have hzero : ¬ (1 < (Nat.toDigits 10 n).length ∧ (Nat.toDigits 10 n).head? = some '0') := by
    rintro ⟨hlong, hhead⟩
    rw [head?_toDigits n hhead] at hlong
    exact absurd hlong (by decide)
  rw [readNatural?, List.takeWhile_append_of_pos hdigits, List.dropWhile_append_of_pos hdigits,
    hnone.1, hnone.2, List.append_nil, if_neg hzero, readDigits?_toDigits, Option.map_some]

/-- A whole number is written with its digits, behind a dash if it is negative. -/
theorem toList_toString_int (n : Int) :
    (toString n).toList = if n < 0 then '-' :: Nat.toDigits 10 n.natAbs
      else Nat.toDigits 10 n.natAbs := by
  cases n with
  | ofNat n => simp [toString, Int.repr, Nat.repr]
  | negSucc n => simp [toString, Int.repr, Nat.repr]

/-- A whole number begins with a dash or a digit. -/
theorem toString_int_eq_cons (n : Int) :
    ∃ c cs, (toString n).toList = c :: cs ∧ (c = '-' ∨ c.isDigit = true) := by
  rw [toList_toString_int]
  split
  · exact ⟨'-', _, rfl, .inl rfl⟩
  · cases hdigits : Nat.toDigits 10 n.natAbs with
    | nil => exact absurd hdigits Nat.toDigits_ne_nil
    | cons c cs =>
        have hc : c ∈ Nat.toDigits 10 n.natAbs := by simp [hdigits]
        exact ⟨c, cs, rfl, .inr (Nat.isDigit_of_mem_toDigits (by decide) (by decide) hc)⟩

/-- A whole number is read back. -/
theorem readInteger?_toString (n : Int) {rest : List Char} (hrest : EndsNumber rest) :
    readInteger? ((toString n).toList ++ rest) = some (n, rest) := by
  rw [toList_toString_int]
  split
  · rename_i hneg
    rw [List.cons_append, readInteger?, readNatural?_toDigits _ hrest, Option.map_some]
    simp only [Prod.map_apply, id_eq, Option.some.injEq, Prod.mk.injEq, and_true]
    omega
  · rename_i hneg
    rw [readInteger?, readNatural?_toDigits _ hrest, Option.map_some]
    · simp only [Prod.map_apply, id_eq, Option.some.injEq, Prod.mk.injEq, and_true]
      omega
    · intro cs hcs
      cases hdigits : Nat.toDigits 10 n.natAbs with
      | nil => exact absurd hdigits Nat.toDigits_ne_nil
      | cons d ds =>
          rw [hdigits, List.cons_append, List.cons.injEq] at hcs
          have hmem : '-' ∈ Nat.toDigits 10 n.natAbs := by simp [hdigits, hcs.1]
          exact notMem_toDigits n.natAbs (by decide) hmem

/-! ## Values -/

theorem skipGap_cons {c : Char} (h : isGap c = false) (cs : List Char) :
    skipGap (c :: cs) = c :: cs := by
  rw [skipGap, List.dropWhile_cons, h]
  rfl

/-- A number begins with no other character than a dash or a digit. -/
theorem ne_of_startsNumber {c d : Char} (hc : c = '-' ∨ c.isDigit = true) (hdash : d ≠ '-')
    (hdigit : d.isDigit = false) : c ≠ d := by
  rintro rfl
  rcases hc with hc | hc
  · exact hdash hc
  · rw [hdigit] at hc
    cases hc

theorem isGap_of_startsNumber {c : Char} (hc : c = '-' ∨ c.isDigit = true) : isGap c = false := by
  have hspace := ne_of_startsNumber hc (d := ' ') (by decide) rfl
  have htab := ne_of_startsNumber hc (d := '\t') (by decide) rfl
  have hfeed := ne_of_startsNumber hc (d := '\n') (by decide) rfl
  have hreturn := ne_of_startsNumber hc (d := '\r') (by decide) rfl
  simp [isGap, hspace, htab, hfeed, hreturn]

/-- What begins with a dash or a digit is read as a number. -/
theorem readValue?_integer {c : Char} (hc : c = '-' ∨ c.isDigit = true) (fuel : Nat)
    (cs : List Char) :
    readValue? (fuel + 1) (c :: cs) = (readInteger? (c :: cs)).map (Prod.map .int id) := by
  rw [readValue?, skipGap_cons (isGap_of_startsNumber hc)]
  split
  case h_7 => rfl
  -- The forms of the other values begin with another character.
  all_goals
    rename_i h
    exact absurd (List.cons.inj h).1 (ne_of_startsNumber hc (by decide) rfl)

/-- A value begins neither with white space nor with the end of an array. -/
theorem render_eq_cons (v : Json) :
    ∃ c cs, v.render = c :: cs ∧ isGap c = false ∧ c ≠ ']' := by
  cases v with
  | null => exact ⟨'n', _, rfl, rfl, by decide⟩
  | bool b =>
      cases b with
      | false => exact ⟨'f', _, rfl, rfl, by decide⟩
      | true => exact ⟨'t', _, rfl, rfl, by decide⟩
  | int n =>
      obtain ⟨c, cs, hn, hc⟩ := toString_int_eq_cons n
      exact ⟨c, cs, hn, isGap_of_startsNumber hc, ne_of_startsNumber hc (by decide) rfl⟩
  | string s => exact ⟨'"', _, rfl, rfl, by decide⟩
  | array items => exact ⟨'[', _, rfl, rfl, by decide⟩
  | object entries => exact ⟨'\x7b', _, rfl, rfl, by decide⟩

/-- A value with something behind it is longer than that, has no white space in front, and does not
begin with the end of an array. -/
theorem render_append_cases (v : Json) (rest : List Char) :
    rest.length < (v.render ++ rest).length ∧ skipGap (v.render ++ rest) = v.render ++ rest ∧
      ∀ more, v.render ++ rest ≠ ']' :: more := by
  obtain ⟨c, cs, hv, hgap, hclose⟩ := v.render_eq_cons
  rw [hv, List.cons_append]
  refine ⟨?_, skipGap_cons hgap _, fun more h => hclose (List.cons.inj h).1⟩
  rw [List.length_cons, List.length_append]
  omega

/-- What is written behind the first item of an array. -/
def moreItems : List Json → List Char
  | [] => []
  | item :: items => ',' :: (item.render ++ moreItems items)

/-- The written form of an entry of an object. -/
def renderEntry (entry : String × Json) : List Char := quote entry.1 ++ ':' :: entry.2.render

/-- What is written behind the first entry of an object. -/
def moreEntries : List (String × Json) → List Char
  | [] => []
  | entry :: entries => ',' :: (renderEntry entry ++ moreEntries entries)

theorem renderItems_cons (item : Json) (items : List Json) :
    renderItems (item :: items) = item.render ++ moreItems items := by
  induction items generalizing item with
  | nil => rw [renderItems, moreItems, List.append_nil]
  | cons next rest ih => rw [renderItems, ih, moreItems]

theorem renderEntries_cons (entry : String × Json) (entries : List (String × Json)) :
    renderEntries (entry :: entries) = renderEntry entry ++ moreEntries entries := by
  induction entries generalizing entry with
  | nil => simp [renderEntries, moreEntries, renderEntry]
  | cons next rest ih => simp [renderEntries, ih, moreEntries, renderEntry]

theorem length_renderEntry_append (entry : String × Json) (rest : List Char) :
    rest.length < (renderEntry entry ++ rest).length := by
  rw [renderEntry, quote, List.length_append, List.length_append, List.length_cons]
  omega

theorem endsNumber_moreItems (items : List Json) (rest : List Char) :
    EndsNumber (moreItems items ++ ']' :: rest) := by
  cases items with
  | nil => exact .cons rfl _
  | cons _ _ => exact .cons rfl _

theorem endsNumber_moreEntries (entries : List (String × Json)) (rest : List Char) :
    EndsNumber (moreEntries entries ++ '\x7d' :: rest) := by
  cases entries with
  | nil => exact .cons rfl _
  | cons _ _ => exact .cons rfl _

/-! A reader passes on one unit of fuel less, and of two in a row at least one takes a character, so
twice the length of the text is enough fuel. -/

mutual

/-- A value is read back, and what follows it is left. -/
theorem readValue?_render : ∀ (v : Json) (fuel : Nat) (rest : List Char), EndsNumber rest →
    2 * (v.render ++ rest).length ≤ fuel → readValue? fuel (v.render ++ rest) = some (v, rest)
  | .null, fuel + 1, rest, _, _ => rfl
  | .bool true, fuel + 1, rest, _, _ => rfl
  | .bool false, fuel + 1, rest, _, _ => rfl
  | .int n, fuel + 1, rest, hrest, _ => by
      obtain ⟨c, cs, hn, hc⟩ := toString_int_eq_cons n
      have hread := readInteger?_toString n hrest
      rw [render]
      rw [hn, List.cons_append] at hread ⊢
      rw [readValue?_integer hc, hread]
      rfl
  | .string s, fuel + 1, rest, _, _ => by
      rw [render, quote, List.cons_append]
      show (readString? _).map _ = _
      rw [readString?_quote]
      simp
  | .array items, fuel + 1, rest, _, hfuel => by
      have hitems := readItems?_render items fuel rest (by
        simp [render] at hfuel ⊢
        omega)
      rw [render, List.cons_append, List.append_assoc]
      show (readItems? fuel (renderItems items ++ ']' :: rest)).map _ = _
      rw [hitems]
      rfl
  | .object entries, fuel + 1, rest, _, hfuel => by
      have hentries := readEntries?_render entries fuel rest (by
        simp [render] at hfuel ⊢
        omega)
      rw [render, List.cons_append, List.append_assoc]
      show (readEntries? fuel (renderEntries entries ++ '\x7d' :: rest)).map _ = _
      rw [hentries]
      rfl
  | v, 0, rest, _, hfuel => by
      obtain ⟨c, cs, hv, -⟩ := v.render_eq_cons
      simp [hv] at hfuel

/-- The items of an array are read back. -/
theorem readItems?_render : ∀ (items : List Json) (fuel : Nat) (rest : List Char),
    2 * (renderItems items ++ ']' :: rest).length + 1 ≤ fuel →
      readItems? fuel (renderItems items ++ ']' :: rest) = some (items, rest)
  | [], fuel + 1, rest, _ => rfl
  | item :: items, fuel + 1, rest, hfuel => by
      rw [renderItems_cons, List.append_assoc] at hfuel ⊢
      obtain ⟨hlong, hskip, hopen⟩ := item.render_append_cases (moreItems items ++ ']' :: rest)
      have hitem := readValue?_render item fuel _ (endsNumber_moreItems items rest) (by omega)
      have hmore := readMoreItems?_moreItems items fuel rest (by omega)
      rw [readItems?, hskip]
      split
      · rename_i h
        exact absurd h (hopen _)
      · rw [hitem, Option.bind_some]
        dsimp only
        rw [hmore]
        rfl

/-- The items behind an item are read back. -/
theorem readMoreItems?_moreItems : ∀ (items : List Json) (fuel : Nat) (rest : List Char),
    2 * (moreItems items ++ ']' :: rest).length + 1 ≤ fuel →
      readMoreItems? fuel (moreItems items ++ ']' :: rest) = some (items, rest)
  | [], fuel + 1, rest, _ => rfl
  | item :: items, fuel + 1, rest, hfuel => by
      rw [moreItems, List.cons_append, List.append_assoc] at hfuel ⊢
      rw [List.length_cons] at hfuel
      obtain ⟨hlong, -, -⟩ := item.render_append_cases (moreItems items ++ ']' :: rest)
      have hitem := readValue?_render item fuel _ (endsNumber_moreItems items rest) (by omega)
      have hmore := readMoreItems?_moreItems items fuel rest (by omega)
      show (readValue? fuel _).bind _ = _
      rw [hitem, Option.bind_some]
      dsimp only
      rw [hmore]
      rfl

/-- The entries of an object are read back. -/
theorem readEntries?_render : ∀ (entries : List (String × Json)) (fuel : Nat) (rest : List Char),
    2 * (renderEntries entries ++ '\x7d' :: rest).length + 1 ≤ fuel →
      readEntries? fuel (renderEntries entries ++ '\x7d' :: rest) = some (entries, rest)
  | [], fuel + 1, rest, _ => rfl
  | entry :: entries, fuel + 1, rest, hfuel => by
      rw [renderEntries_cons, List.append_assoc] at hfuel ⊢
      have hlong := length_renderEntry_append entry (moreEntries entries ++ '\x7d' :: rest)
      have hentry := readPair?_render entry fuel _ (endsNumber_moreEntries entries rest) (by omega)
      have hmore := readMoreEntries?_moreEntries entries fuel rest (by omega)
      have hopen : readEntries? (fuel + 1) (renderEntry entry ++ (moreEntries entries ++
          '\x7d' :: rest)) = (readPair? fuel (renderEntry entry ++ (moreEntries entries ++
          '\x7d' :: rest))).bind fun (entry, rest) =>
            (readMoreEntries? fuel rest).map (Prod.map (entry :: ·) id) := rfl
      rw [hopen, hentry, Option.bind_some]
      dsimp only
      rw [hmore]
      rfl

/-- The entries behind an entry are read back. -/
theorem readMoreEntries?_moreEntries : ∀ (entries : List (String × Json)) (fuel : Nat)
    (rest : List Char), 2 * (moreEntries entries ++ '\x7d' :: rest).length + 1 ≤ fuel →
      readMoreEntries? fuel (moreEntries entries ++ '\x7d' :: rest) = some (entries, rest)
  | [], fuel + 1, rest, _ => rfl
  | entry :: entries, fuel + 1, rest, hfuel => by
      rw [moreEntries, List.cons_append, List.append_assoc] at hfuel ⊢
      rw [List.length_cons] at hfuel
      have hlong := length_renderEntry_append entry (moreEntries entries ++ '\x7d' :: rest)
      have hentry := readPair?_render entry fuel _ (endsNumber_moreEntries entries rest) (by omega)
      have hmore := readMoreEntries?_moreEntries entries fuel rest (by omega)
      show (readPair? fuel _).bind _ = _
      rw [hentry, Option.bind_some]
      dsimp only
      rw [hmore]
      rfl

/-- An entry of an object is read back. -/
theorem readPair?_render : ∀ (entry : String × Json) (fuel : Nat) (rest : List Char),
    EndsNumber rest → 2 * (renderEntry entry ++ rest).length ≤ fuel →
      readPair? fuel (renderEntry entry ++ rest) = some (entry, rest)
  | (key, value), fuel + 1, rest, hrest, hfuel => by
      have hvalue := readValue?_render value fuel rest hrest (by
        simp [renderEntry, quote] at hfuel ⊢
        omega)
      have hshape : renderEntry (key, value) ++ rest =
          '"' :: ((key.toList.flatMap escapeChar ++ ['"']) ++ ':' :: (value.render ++ rest)) := by
        simp [renderEntry, quote]
      rw [hshape]
      show (readString? _).bind _ = _
      rw [readString?_quote, Option.bind_some]
      show (readValue? fuel (value.render ++ rest)).map _ = _
      rw [hvalue]
      simp
  | entry, 0, rest, _, hfuel => by
      simp [renderEntry, quote] at hfuel

end

/-- Every value is read back from its written form. -/
theorem read?_render (v : Json) : read? v.render = some v := by
  have hvalue := readValue?_render v _ [] (by simp [EndsNumber])
    (Nat.le_refl (2 * (v.render ++ []).length))
  rw [List.append_nil] at hvalue
  rw [read?, hvalue]
  rfl

/-- Two values that are written alike are the same value. -/
theorem render_injective : Function.Injective render := by
  intro v w h
  have hread := read?_render v
  rw [h, read?_render w, Option.some.injEq] at hread
  exact hread.symm

/-! ## Lines -/

/-- What is written for a character of a string can be seen. -/
theorem toNat_of_mem_escapeChar {c d : Char} (h : d ∈ escapeChar c) : 0x20 ≤ d.toNat := by
  have hdigit : ∀ n < 16, 0x20 ≤ (Nat.digitChar n).toNat := by decide
  obtain ⟨e, he, hc⟩ | ⟨hcontrol, hc⟩ | ⟨-, -, hprintable, hc⟩ := escapeChar_cases c <;>
    rw [hc] at h
  · obtain ⟨-, -, hletter⟩ := unescapeLetter?_shortEscapes _ he
    have hbackslash : 0x20 ≤ '\\'.toNat := by decide
    rcases List.mem_pair.1 h with rfl | rfl
    · exact hbackslash
    · exact hletter
  · simp only [List.mem_cons, List.not_mem_nil, or_false] at h
    rcases h with rfl | rfl | rfl | rfl | rfl | rfl
    · decide
    · decide
    · decide
    · decide
    · exact hdigit _ (by omega)
    · exact hdigit _ (by omega)
  · rw [List.mem_singleton.1 h]
    exact hprintable

/-- All characters of a text can be seen. -/
def Printable (cs : List Char) : Prop := ∀ c ∈ cs, 0x20 ≤ c.toNat

instance (cs : List Char) : Decidable (Printable cs) :=
  List.decidableBAll (fun c : Char => 0x20 ≤ c.toNat) cs

theorem Printable.nil : Printable [] := by decide

theorem Printable.append {cs ds : List Char} (h : Printable cs) (h' : Printable ds) :
    Printable (cs ++ ds) := List.forall_mem_append.2 ⟨h, h'⟩

theorem Printable.cons {c : Char} {cs : List Char} (hc : 0x20 ≤ c.toNat) (h : Printable cs) :
    Printable (c :: cs) := List.forall_mem_cons.2 ⟨hc, h⟩

theorem printable_quote (s : String) : Printable (quote s) := by
  refine .cons (by decide) (.append (fun d hd => ?_) (.cons (by decide) .nil))
  obtain ⟨c, -, hd⟩ := List.mem_flatMap.1 hd
  exact toNat_of_mem_escapeChar hd

theorem printable_int (n : Int) : Printable (toString n).toList := by
  have hdigits : Printable (Nat.toDigits 10 n.natAbs) := by
    intro c hc
    have hdigit := Nat.isDigit_of_mem_toDigits (by decide) (by decide) hc
    have hrange : 48 ≤ c.toNat ∧ c.toNat ≤ 57 := by
      simpa [Char.isDigit, UInt32.le_iff_toNat_le] using hdigit
    omega
  rw [toList_toString_int]
  split
  · exact .cons (by decide) hdigits
  · exact hdigits

mutual

/-- A written value has no control characters, so it is one line. -/
theorem printable_render : ∀ v : Json, Printable v.render
  | .null => by decide
  | .bool true => by decide
  | .bool false => by decide
  | .int n => printable_int n
  | .string s => printable_quote s
  | .array items =>
      .cons (by decide) ((printable_renderItems items).append (.cons (by decide) .nil))
  | .object entries =>
      .cons (by decide) ((printable_renderEntries entries).append (.cons (by decide) .nil))

theorem printable_renderItems : ∀ items : List Json, Printable (renderItems items)
  | [] => .nil
  | [item] => printable_render item
  | item :: next :: rest =>
      (printable_render item).append (.cons (by decide) (printable_renderItems (next :: rest)))

theorem printable_renderEntries : ∀ entries : List (String × Json),
    Printable (renderEntries entries)
  | [] => .nil
  | [(key, value)] => (printable_quote key).append (.cons (by decide) (printable_render value))
  | (key, value) :: next :: rest =>
      (printable_quote key).append (.cons (by decide) ((printable_render value).append
        (.cons (by decide) (printable_renderEntries (next :: rest)))))

end

end SpeechGrammar.Json
