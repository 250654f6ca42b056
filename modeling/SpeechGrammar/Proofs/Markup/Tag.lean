import SpeechGrammar.Markup.Reader
import SpeechGrammar.Markup.Writer
import SpeechGrammar.Proofs.Markup.Entity

set_option autoImplicit false

/-!
# Tags are read back

A tag is read as it was written if no blank and none of the characters that end or divide a tag
stand in its name and its keys, whatever its values are (`IsReadableTag`): the values are escaped, so
a quote in a tag always ends the value that it follows. A tag with plain names is one of these.
-/

namespace SpeechGrammar.Markup

open Text

/-! ## Names -/

/-- The characters that end or divide a tag. -/
def tagDelimiters : List Char := ['<', '>', '/', '=', '"', '\x27']

/-- The character neither ends nor divides a tag. -/
def isTagChar (c : Char) : Bool := !isXmlBlank c && !tagDelimiters.contains c

/-- A key that is read as it was written. It may have a prefix. -/
def IsTagKey (key : String) : Prop := key ≠ "" ∧ key.toList.all isTagChar = true

/-- The name of an element that is read as it was written: it has no prefix, and does not begin like
other markup. -/
structure IsTagName (name : String) : Prop where
  key : IsTagKey name
  noPrefix : ':' ∉ name.toList
  head : ∀ c ∈ name.toList.head?, c ≠ '!' ∧ c ≠ '?'

/-- A name with attributes that make a tag which is read as it was written. -/
structure IsReadableTag (name : String) (attributes : List (String × String)) : Prop where
  name : IsTagName name
  keys : ∀ entry ∈ attributes, IsTagKey entry.1
  nodup : (attributes.map Prod.fst).Nodup

instance (key : String) : Decidable (IsTagKey key) := inferInstanceAs (Decidable (_ ∧ _))

theorem IsTagKey.isTagChar_of_mem {key : String} (h : IsTagKey key) {c : Char}
    (hc : c ∈ key.toList) : isTagChar c = true :=
  List.all_eq_true.1 h.2 c hc

theorem isXmlBlank_of_isTagChar {c : Char} (h : isTagChar c = true) : isXmlBlank c = false := by
  simpa using (Bool.and_eq_true_iff.1 h).1

theorem notMem_of_isTagChar {cs : List Char} (h : ∀ c ∈ cs, isTagChar c = true) {d : Char}
    (hd : isTagChar d = false) : d ∉ cs := by
  intro hmem
  rw [h d hmem] at hd
  cases hd

/-- A plain key begins and ends with a character of a name. -/
theorem IsTagKey.ends {key : String} (h : IsTagKey key) :
    (∃ c cs, key.toList = c :: cs ∧ isTagChar c = true) ∧
      ∃ cs c, key.toList = cs ++ [c] ∧ isTagChar c = true := by
  have hne : key.toList ≠ [] := fun hnil => h.1 (String.toList_eq_nil_iff.1 hnil)
  constructor
  · obtain ⟨c, cs, hcs⟩ := List.exists_cons_of_ne_nil hne
    exact ⟨c, cs, hcs, h.isTagChar_of_mem (by simp [hcs])⟩
  · obtain ⟨cs, c, hcs⟩ := (List.eq_nil_or_concat' key.toList).resolve_left hne
    exact ⟨cs, c, hcs, h.isTagChar_of_mem (by simp [hcs])⟩

/-! ## Plain names -/

/-- The characters that a tag is taken apart by. -/
def tagMarks : List Char := ['<', '>', '/', '=', '"', '\x27', '&', '!', '?']

/-- The character may stand in a plain name. -/
def isNameChar (c : Char) : Bool := !isXmlBlank c && !tagMarks.contains c

/-- A key that is written as it is. It may have a prefix. -/
def IsPlainKey (key : String) : Prop := key ≠ "" ∧ key.toList.all isNameChar = true

/-- The name of an element that is written as it is and has no prefix. -/
def IsPlainName (name : String) : Prop := IsPlainKey name ∧ ':' ∉ name.toList

/-- A name with attributes that make a tag: plain names, and no key twice. -/
structure IsPlainTag (name : String) (attributes : List (String × String)) : Prop where
  name : IsPlainName name
  keys : ∀ entry ∈ attributes, IsPlainKey entry.1
  nodup : (attributes.map Prod.fst).Nodup

instance (key : String) : Decidable (IsPlainKey key) := inferInstanceAs (Decidable (_ ∧ _))

instance (name : String) : Decidable (IsPlainName name) := inferInstanceAs (Decidable (_ ∧ _))

/-- Plain keys are read as they were written. -/
theorem IsPlainKey.isTagKey {key : String} (h : IsPlainKey key) : IsTagKey key := by
  refine ⟨h.1, List.all_eq_true.2 fun c hc => ?_⟩
  have hname := List.all_eq_true.1 h.2 c hc
  simp only [isNameChar, isTagChar, tagMarks, tagDelimiters, List.contains_eq_mem, List.mem_cons,
    List.not_mem_nil, or_false, Bool.and_eq_true, Bool.not_eq_true', decide_eq_false_iff_not,
    not_or] at hname ⊢
  tauto

theorem IsPlainName.isTagName {name : String} (h : IsPlainName name) : IsTagName name := by
  refine ⟨h.1.isTagKey, h.2, fun c hc => ?_⟩
  have hname := List.all_eq_true.1 h.1.2 c (List.mem_of_mem_head? hc)
  constructor <;>
    · rintro rfl
      exact absurd hname (by decide)

/-- Tags with plain names are read as they were written. -/
theorem IsPlainTag.isReadable {name : String} {attributes : List (String × String)}
    (h : IsPlainTag name attributes) : IsReadableTag name attributes :=
  ⟨h.name.isTagName, fun entry hentry => (h.keys entry hentry).isTagKey, h.nodup⟩

/-! ## The end of a tag -/

/-- The characters do not end a tag that they stand in. -/
def IsInside (xs : List Char) : Prop :=
  ∀ ys, cutTag? none (xs ++ ys) = (cutTag? none ys).map fun cut => (xs ++ cut.1, cut.2)

theorem IsInside.append {xs ys : List Char} (hx : IsInside xs) (hy : IsInside ys) :
    IsInside (xs ++ ys) := by
  intro zs
  rw [List.append_assoc, hx, hy, Option.map_map]
  simp [Function.comp_def]

theorem IsInside.cut {xs : List Char} (h : IsInside xs) (rest : List Char) :
    cutTag? none (xs ++ '>' :: rest) = some (xs, rest) := by
  rw [h]
  simp [cutTag?]

/-- A tag goes on behind characters that are neither quotes nor its end. -/
theorem isInside_plain {xs : List Char} (h : ∀ c ∈ xs, c ≠ '>' ∧ c ≠ '"' ∧ c ≠ '\x27') :
    IsInside xs := by
  intro ys
  induction xs with
  | nil => simp
  | cons x xs ih =>
      rw [List.forall_mem_cons] at h
      obtain ⟨⟨hend, hquote⟩, hxs⟩ := h
      rw [List.cons_append, cutTag?, if_neg hend, if_neg (by simpa using hquote), ih hxs,
        Option.map_map]
      rfl

theorem cutTag?_quoted {quote : Char} {value : List Char} (h : quote ∉ value) (ys : List Char) :
    cutTag? (some quote) (value ++ quote :: ys) =
      (cutTag? none ys).map fun cut => (value ++ quote :: cut.1, cut.2) := by
  induction value with
  | nil =>
      rw [List.nil_append, cutTag?, if_pos rfl]
      rfl
  | cons c value ih =>
      rw [List.mem_cons, not_or] at h
      rw [List.cons_append, cutTag?, if_neg (Ne.symm h.1), ih h.2, Option.map_map]
      rfl

/-- A tag goes on behind a value in quotes. -/
theorem isInside_quoted {value : List Char} (h : '"' ∉ value) :
    IsInside ('"' :: (value ++ ['"'])) := by
  intro ys
  have hclosed := cutTag?_quoted h ys
  rw [List.cons_append, List.append_assoc, List.singleton_append, cutTag?, if_neg (by decide),
    if_pos (by simp), hclosed, Option.map_map]
  simp [consFirst, Function.comp_def]

theorem isInside_key {key : List Char} (h : ∀ c ∈ key, isTagChar c = true) : IsInside key := by
  refine isInside_plain fun c hc => ⟨?_, ?_, ?_⟩ <;>
    exact ne_of_mem_of_not_mem hc (notMem_of_isTagChar h (by decide))

theorem quote_notMem_escape (value : List Char) : '"' ∉ escape value :=
  notMem_escape (by decide) (by decide) value

theorem isInside_renderAttributes {attributes : List (String × String)}
    (h : ∀ entry ∈ attributes, IsTagKey entry.1) : IsInside (renderAttributes attributes) := by
  induction attributes with
  | nil => exact isInside_plain (by simp [renderAttributes])
  | cons entry attributes ih =>
      obtain ⟨key, value⟩ := entry
      rw [List.forall_mem_cons] at h
      have hspace : IsInside [' '] := isInside_plain (by simp)
      have hequals : IsInside ['='] := isInside_plain (by simp)
      have hentry := ((hspace.append (isInside_key fun _ => h.1.isTagChar_of_mem)).append hequals).append
        (isInside_quoted (quote_notMem_escape value.toList))
      have happend := hentry.append (ih h.2)
      simpa [renderAttributes] using happend

/-! ## Attributes -/

theorem cutAt?_quote {value : List Char} (h : '"' ∉ value) (rest : List Char) :
    cutAt? ['"'] (value ++ '"' :: rest) = some (value, rest) := by
  induction value with
  | nil => simp [cutAt?]
  | cons c value ih =>
      rw [List.mem_cons, not_or] at h
      rw [List.cons_append, cutAt?, if_neg (by simpa [List.isPrefixOf] using h.1), ih h.2]
      rfl

/-- A written attribute is read back. -/
theorem attribute?_render {key : String} (h : IsTagKey key) (value : String)
    (rest : List Char) :
    attribute? (key.toList ++ '=' :: '"' :: (escape value.toList ++ '"' :: rest)) =
      some ((key, value), rest) := by
  obtain ⟨⟨c, cs, hcs, -⟩, -⟩ := h.ends
  have hkey : ∀ d ∈ cs, isKeyChar d = true := by
    intro d hd
    have hname : isTagChar d = true := h.isTagChar_of_mem (by simp [hcs, hd])
    have hne : d ≠ '=' := by
      rintro rfl
      exact absurd hname (by decide)
    simp [isKeyChar, hne, isXmlBlank_of_isTagChar hname]
  have hequals : isKeyChar '=' = false := by decide
  have hblank : isXmlBlank '=' = false ∧ isXmlBlank '"' = false := by decide
  have hofList : String.ofList (c :: cs) = key := by rw [← hcs, String.ofList_toList]
  rw [hcs, List.cons_append, attribute?, List.dropWhile_append_of_pos hkey,
    List.takeWhile_append_of_pos hkey]
  simp [hequals, hblank.1, hblank.2, cutAt?_quote (quote_notMem_escape value.toList),
    unescape?_escape, hofList]

/-- Written attributes are read back, one after the other. -/
theorem attributeList?_renderAttributes {attributes : List (String × String)}
    (h : ∀ entry ∈ attributes, IsTagKey entry.1) :
    attributeList? (renderAttributes attributes) = some attributes := by
  induction attributes with
  | nil =>
      rw [attributeList?]
      rfl
  | cons entry attributes ih =>
      obtain ⟨key, value⟩ := entry
      rw [List.forall_mem_cons] at h
      obtain ⟨⟨c, cs, hcs, hc⟩, -⟩ := h.1.ends
      have hshape : (renderAttributes ((key, value) :: attributes)).dropWhile isXmlBlank =
          key.toList ++ '=' :: '"' :: (escape value.toList ++ '"' :: renderAttributes attributes) := by
        simp [renderAttributes, hcs, isXmlBlank_of_isTagChar hc,
          (by decide : isXmlBlank ' ' = true)]
      have hread := attribute?_render h.1 value (renderAttributes attributes)
      rw [attributeList?, hshape, if_neg (by simp [hcs])]
      split
      · rename_i hnone
        rw [hread] at hnone
        cases hnone
      · rename_i entry rest hsome
        rw [hread] at hsome
        cases hsome
        rw [ih h.2]
        rfl

theorem attributes?_renderAttributes {name : String} {attributes : List (String × String)}
    (h : IsReadableTag name attributes) :
    attributes? (renderAttributes attributes) = some attributes := by
  rw [attributes?, attributeList?_renderAttributes h.keys]
  simpa using h.nodup

/-! ## Tags -/

variable {name : String} {attributes : List (String × String)}

/-- Attributes begin with a blank, so the name is found in front of them. -/
theorem tagName_render (h : IsReadableTag name attributes) :
    tagName (name.toList ++ renderAttributes attributes) = name.toList ∧
      tagRest (name.toList ++ renderAttributes attributes) = renderAttributes attributes := by
  have hname : ∀ c ∈ name.toList, (!isXmlBlank c) = true := by
    intro c hc
    simpa using isXmlBlank_of_isTagChar (h.name.key.isTagChar_of_mem hc)
  have hspace : isXmlBlank ' ' = true := by decide
  rw [tagName, tagRest, List.takeWhile_append_of_pos hname, List.dropWhile_append_of_pos hname]
  cases attributes with
  | nil => simp [renderAttributes]
  | cons entry attributes => simp [renderAttributes, hspace]

/-- The last character of a start tag is the end of its name or a quote. -/
theorem getLast?_render (h : IsReadableTag name attributes) :
    (name.toList ++ renderAttributes attributes).getLast? ≠ some '/' := by
  cases attributes using List.reverseRecOn with
  | nil =>
      obtain ⟨-, cs, c, hcs, hc⟩ := h.name.key.ends
      rw [renderAttributes, List.flatMap_nil, List.append_nil, hcs, List.getLast?_concat]
      rintro ⟨⟩
      exact absurd hc (by decide)
  | append_singleton attributes entry =>
      have hquote : name.toList ++ renderAttributes (attributes ++ [entry]) =
          name.toList ++ renderAttributes attributes ++
            ' ' :: (entry.1.toList ++ '=' :: '"' :: escape entry.2.toList) ++ ['"'] := by
        simp [renderAttributes]
      rw [hquote, List.getLast?_concat]
      decide

theorem tagEvent?_start (h : IsReadableTag name attributes) :
    tagEvent? (name.toList ++ renderAttributes attributes) =
      some (.startTag name.toList attributes) := by
  obtain ⟨hname, hrest⟩ := tagName_render h
  rw [tagEvent?, if_neg (getLast?_render h), hname, hrest, attributes?_renderAttributes h]
  rfl

theorem tagEvent?_empty (h : IsReadableTag name attributes) :
    tagEvent? (name.toList ++ renderAttributes attributes ++ ['/']) =
      some (.emptyTag name.toList attributes) := by
  obtain ⟨hname, hrest⟩ := tagName_render h
  rw [tagEvent?, if_pos (by simp), List.dropLast_concat, hname, hrest,
    attributes?_renderAttributes h]
  rfl

/-- Markup that begins with a name is a tag. -/
theorem readMarkup_name (h : IsTagName name) (position : Nat) (cs : List Char) :
    readMarkup position (name.toList ++ cs) = readTag position (name.toList ++ cs) := by
  obtain ⟨⟨c, ds, hds, hc⟩, -⟩ := h.key.ends
  have hslash : c ≠ '/' := by
    rintro rfl
    exact absurd hc (by decide)
  obtain ⟨hexclamation, hquestion⟩ := h.head c (by simp [hds])
  rw [hds, List.cons_append, readMarkup] <;> simp_all

theorem isInside_tag (h : IsReadableTag name attributes) :
    IsInside (name.toList ++ renderAttributes attributes) :=
  (isInside_key fun _ => h.name.key.isTagChar_of_mem).append (isInside_renderAttributes h.keys)

/-- A start tag is read back. -/
theorem readMarkup_startTag (h : IsReadableTag name attributes) (position : Nat)
    (rest : List Char) :
    ∃ size, readMarkup position (name.toList ++ renderAttributes attributes ++ '>' :: rest) =
      .ok (some (.startTag name.toList attributes), size, rest) := by
  rw [List.append_assoc, readMarkup_name h.name, readTag, ← List.append_assoc,
    (isInside_tag h).cut]
  simp only [tagEvent?_start h]
  exact ⟨_, rfl⟩

/-- An empty tag is read back. -/
theorem readMarkup_emptyTag (h : IsReadableTag name attributes) (position : Nat)
    (rest : List Char) :
    ∃ size, readMarkup position
        (name.toList ++ renderAttributes attributes ++ ['/', '>'] ++ rest) =
      .ok (some (.emptyTag name.toList attributes), size, rest) := by
  have hslash : IsInside ['/'] := isInside_plain (by simp)
  have hcut := ((isInside_tag h).append hslash).cut rest
  have hshape : name.toList ++ renderAttributes attributes ++ ['/', '>'] ++ rest =
      name.toList ++ renderAttributes attributes ++ ['/'] ++ '>' :: rest := by simp
  rw [hshape]
  rw [List.append_assoc, List.append_assoc, readMarkup_name h.name, readTag,
    ← List.append_assoc, ← List.append_assoc, hcut]
  simp only [tagEvent?_empty h]
  exact ⟨_, rfl⟩

theorem endTagName_name (h : IsTagKey name) : endTagName name.toList = name.toList := by
  obtain ⟨-, cs, c, hcs, hc⟩ := h.ends
  have hblank := isXmlBlank_of_isTagChar hc
  have htrim : trimXmlEnd name.toList = name.toList := by
    rw [hcs, trimXmlEnd_concat, hblank]
    rfl
  rw [endTagName, htrim, ite_self]

/-- An end tag is read back. -/
theorem readMarkup_endTag (h : IsTagKey name) (position : Nat) (rest : List Char) :
    ∃ size, readMarkup position ('/' :: (name.toList ++ '>' :: rest)) =
      .ok (some (.endTag name.toList position), size, rest) := by
  rw [readMarkup, readEndTag, (isInside_key fun _ => h.isTagChar_of_mem).cut]
  simp only [endTagName_name h]
  exact ⟨_, rfl⟩

theorem localName_name (h : IsTagName name) : localName name.toList = name.toList := by
  have hcolon : ∀ c ∈ name.toList, (c != ':') = true := by
    intro c hc
    rw [bne_iff_ne]
    exact ne_of_mem_of_not_mem hc h.noPrefix
  rw [localName, List.dropWhile_eq_nil_iff.2 hcolon]

end SpeechGrammar.Markup
