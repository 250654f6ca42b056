import SpeechGrammar.Proofs.Markup.Content

set_option autoImplicit false

/-!
# Comments

A comment in the content of an element does not show in what is read, nor do the blanks around it
(`read_comment`). Where a comment stands inside a text the reader sees two runs, and each of them
loses the blanks at its ends before they are joined. So a comment between two words takes
the blanks between them with it (`read_comment_ne`), and it leaves no trace only where no such blank
is lost.
-/

namespace SpeechGrammar.Markup

open Text

/-! ## A comment between two runs -/

/-- Without two hyphens inside, a comment ends at its own mark. -/
theorem cutAt?_comment {comment : List Char} (h : ¬ ['-', '-'] <:+: comment) (rest : List Char) :
    cutAt? ['-', '-', '>'] (comment ++ ['-', '-', '>'] ++ rest) = some (comment, rest) := by
  induction comment with
  | nil => rfl
  | cons c comment ih =>
      have hnot : ['-', '-', '>'].isPrefixOf (c :: (comment ++ ['-', '-', '>'] ++ rest)) = false := by
        rw [Bool.eq_false_iff, ne_eq, List.isPrefixOf_iff_prefix]
        rintro ⟨ys, hys⟩
        simp only [List.cons_append, List.nil_append, List.cons.injEq] at hys
        obtain ⟨rfl, hys⟩ := hys
        cases comment with
        | nil => simp at hys
        | cons d comment =>
            obtain ⟨rfl, -⟩ := List.cons.inj hys
            exact h (List.prefix_append ['-', '-'] comment).isInfix
      have hcomment : ¬ ['-', '-'] <:+: comment :=
        fun hinfix => h (List.infix_cons hinfix)
      rw [List.cons_append, List.cons_append, cutAt?, if_neg (by rw [hnot]; decide),
        map_consFirst_eq_some, ih hcomment]

/-- A comment is a piece that does nothing. -/
theorem isPiece_comment {comment : List Char} (h : ¬ ['-', '-'] <:+: comment) :
    IsPiece ('!' :: '-' :: '-' :: (comment ++ ['-', '-', '>'])) some := by
  intro position rest
  refine ⟨none, 4 + byteLength comment + byteLength ['-', '-', '>'], ?_, fun _ => rfl⟩
  show readTo ['-', '-', '>'] (fun _ => none) position 4 (comment ++ ['-', '-', '>'] ++ rest) = _
  rw [readTo, cutAt?_comment h]

/-- The two runs around a comment are taken one after the other, which is as good as both together
once they are trimmed. -/
theorem outcome?_comment {before left comment right after : List Char} (hbefore : IsContent before)
    (hleft : '<' ∉ left) (hcomment : ¬ ['-', '-'] <:+: comment) (hright : '<' ∉ right)
    (hafter : EndsRun after) {a b : Assembly}
    (h : outcome? a (before ++ (left ++ '<' :: ('!' :: '-' :: '-' :: (comment ++ ['-', '-', '>']) ++
      (right ++ after)))) = some b) :
    ∃ inside text more, outcome? a before = some inside ∧ unescape? (trimXml left) = some text ∧
      unescape? (trimXml right) = some more ∧
      outcome? (inside.pushText (text ++ more)) after = some b := by
  rw [outcome?_content hbefore] at h
  obtain ⟨inside, hinside, h⟩ := Option.bind_eq_some_iff.1 h
  rw [outcome?_run hleft (endsRun_markup _)] at h
  obtain ⟨text, htext, h⟩ := Option.bind_eq_some_iff.1 h
  rw [outcome?_piece (isPiece_comment hcomment), Option.bind_some, outcome?_run hright hafter] at h
  obtain ⟨more, hmore, h⟩ := Option.bind_eq_some_iff.1 h
  rw [Assembly.pushText_pushText] at h
  exact ⟨inside, text, more, hinside, htext, hmore, h⟩

theorem outcome?_content_run {before run after : List Char} (hbefore : IsContent before)
    (hrun : '<' ∉ run) (hafter : EndsRun after) {a inside : Assembly} {text : List Char}
    (hinside : outcome? a before = some inside) (htext : unescape? (trimXml run) = some text) :
    outcome? a (before ++ (run ++ after)) = outcome? (inside.pushText text) after := by
  rw [outcome?_content hbefore, hinside, Option.bind_some, outcome?_run hrun hafter, htext,
    Option.bind_some]

/-! ## Blanks between two runs -/

/-- No blank stands between two runs, or there is nothing for it to separate. -/
def NoBlankBetween (left right : List Char) : Prop :=
  trimXml left = [] ∨ trimXml right = [] ∨
    (∀ c ∈ left.getLast?, isXmlBlank c = false) ∧ ∀ c ∈ right.head?, isXmlBlank c = false

/-- Two texts put together without the blanks where they meet. -/
def closeUp (left right : List Char) : List Char :=
  trimXmlEnd left ++ right.dropWhile isXmlBlank

theorem trimXml_append_of_noBlankBetween {left right : List Char} (h : NoBlankBetween left right) :
    trimXml (left ++ right) = trimXml left ++ trimXml right := by
  by_cases hleft : trimXml left = []
  · rw [hleft, List.nil_append]
    exact trimBy_append_left (forall_of_trimBy_eq_nil hleft) right
  · by_cases hright : trimXml right = []
    · rw [hright, List.append_nil]
      exact trimBy_append_right (forall_of_trimBy_eq_nil hright) left
    · obtain ⟨between, -, htrim, hiff⟩ := trimBy_append_between hleft hright
      obtain rfl := hiff.2 ((h.resolve_left hleft).resolve_left hright)
      exact htrim

theorem trimXml_append_of_not_noBlankBetween {left right : List Char}
    (h : ¬ NoBlankBetween left right) :
    ∃ blanks, blanks ≠ [] ∧ (∀ c ∈ blanks, isXmlBlank c = true) ∧
      trimXml (left ++ right) = trimXml left ++ (blanks ++ trimXml right) := by
  simp only [NoBlankBetween, not_or] at h
  obtain ⟨between, hbetween, htrim, hiff⟩ := trimBy_append_between h.1 h.2.1
  exact ⟨between, fun hnil => h.2.2 (hiff.1 hnil), hbetween, htrim⟩

theorem unescape?_blanks {blanks : List Char} (h : ∀ c ∈ blanks, isXmlBlank c = true) :
    unescape? blanks = some blanks := by
  have hamp : '&' ∉ blanks := fun hmem => absurd (h _ hmem) (by decide)
  have hnil : unescape? [] = some [] := by decide
  have happend := unescape?_append hamp []
  rwa [hnil, Option.map_some, List.append_nil] at happend

theorem noBlankBetween_closeUp (left right : List Char) :
    NoBlankBetween (trimXmlEnd left) (right.dropWhile isXmlBlank) := by
  refine .inr (.inr ⟨fun c hc => ?_, head?_dropWhile isXmlBlank right⟩)
  rw [trimXmlEnd, List.getLast?_reverse] at hc
  exact head?_dropWhile isXmlBlank _ c hc

theorem trimXml_closeUp (left right : List Char) :
    trimXml (closeUp left right) = trimXml left ++ trimXml right := by
  have hleft : trimXml (trimXmlEnd left) = trimXml left := by
    have hblank : ∀ c ∈ (left.reverse.takeWhile isXmlBlank).reverse, isXmlBlank c = true :=
      fun c hc => List.mem_takeWhile_imp (List.mem_reverse.1 hc)
    have hsplit : trimXmlEnd left ++ (left.reverse.takeWhile isXmlBlank).reverse = left := by
      rw [trimXmlEnd, ← List.reverse_append, List.takeWhile_append_dropWhile, List.reverse_reverse]
    have htrim := trimBy_append_right hblank (trimXmlEnd left)
    rw [hsplit] at htrim
    exact htrim.symm
  have hright : trimXml (right.dropWhile isXmlBlank) = trimXml right := by
    have hblank : ∀ c ∈ right.takeWhile isXmlBlank, isXmlBlank c = true :=
      fun c hc => List.mem_takeWhile_imp hc
    have htrim := trimBy_append_left hblank (right.dropWhile isXmlBlank)
    rw [List.takeWhile_append_dropWhile] at htrim
    exact htrim.symm
  rw [closeUp, trimXml_append_of_noBlankBetween (noBlankBetween_closeUp left right), hleft, hright]

/-! ## A comment in a document -/

/-- The number of elements that are open behind a text, if it can be read so far. -/
def depth? (cs : List Char) : Option Nat := (outcome? {} (dropMark cs)).map (·.opened.length)

/-- What stands behind the text stands in the content of an element. -/
structure OpensElement (before : List Char) : Prop where
  content : IsContent before
  depth : ∃ n, depth? before = some (n + 1)

theorem OpensElement.ne_nil {before : List Char} (h : OpensElement before) : before ≠ [] := by
  rintro rfl
  obtain ⟨n, hn⟩ := h.depth
  have hmark : dropMark [] = [] := rfl
  have hnil : depth? [] = some 0 := by
    rw [depth?, hmark, outcome?_nil]
    rfl
  rw [hnil] at hn
  cases hn

theorem OpensElement.opened_ne_nil {before : List Char} (h : OpensElement before) {a : Assembly}
    (ha : outcome? {} (dropMark before) = some a) : a.opened ≠ [] := by
  obtain ⟨n, hn⟩ := h.depth
  rw [depth?, ha, Option.map_some, Option.some.injEq] at hn
  rintro hnil
  rw [hnil] at hn
  cases hn

theorem notMem_closeUp {left right : List Char} (hleft : '<' ∉ left) (hright : '<' ∉ right) :
    '<' ∉ closeUp left right := by
  rw [closeUp, trimXmlEnd, List.mem_append, List.mem_reverse, not_or]
  exact ⟨fun h => hleft (List.mem_reverse.1 ((List.dropWhile_suffix _).mem h)),
    fun h => hright ((List.dropWhile_suffix _).mem h)⟩

theorem closeUp_append {after : List Char} (hafter : EndsRun after) (left right : List Char) :
    closeUp left (right ++ after) = closeUp left right ++ after := by
  rw [closeUp, closeUp, List.dropWhile_append, List.append_assoc]
  split
  · rename_i hnil
    rw [hafter.dropWhile_isXmlBlank, List.isEmpty_iff.1 hnil, List.nil_append]
  · rfl

theorem readChars_comment {before left comment right after : List Char} {e : Element}
    (hbefore : OpensElement before) (hleft : '<' ∉ left) (hcomment : ¬ ['-', '-'] <:+: comment)
    (hright : '<' ∉ right) (hafter : EndsRun after)
    (h : readChars (before ++ (left ++
      '<' :: ('!' :: '-' :: '-' :: (comment ++ ['-', '-', '>']) ++ (right ++ after)))) = .ok e) :
    readChars (before ++ (closeUp left right ++ after)) = .ok e ∧
      (readChars (before ++ (left ++ right ++ after)) = .ok e ↔ NoBlankBetween left right) := by
  have hcontent := hbefore.content.dropMark
  simp only [readChars_eq_ok_iff, dropMark_append hbefore.ne_nil] at h ⊢
  obtain ⟨b, hb, hfinish⟩ := h
  obtain ⟨inside, text, more, hinside, htext, hmore, hb⟩ :=
    outcome?_comment hcontent hleft hcomment hright hafter hb
  have hopened := hbefore.opened_ne_nil hinside
  have hboth : '<' ∉ left ++ right := by simp [hleft, hright]
  -- Whatever run leaves as much when it is trimmed can stand for the comment and its runs.
  have hrun : ∀ run, '<' ∉ run → trimXml run = trimXml left ++ trimXml right →
      outcome? {} (dropMark before ++ (run ++ after)) = some b := by
    intro run hnot htrim
    rw [outcome?_content_run hcontent hnot hafter hinside
      (by rw [htrim]; exact unescape?_append_eq_some htext hmore), hb]
  refine ⟨⟨b, hrun _ (notMem_closeUp hleft hright) (trimXml_closeUp left right), hfinish⟩,
    ?_, fun hblank => ⟨b, hrun _ hboth (trimXml_append_of_noBlankBetween hblank), hfinish⟩⟩
  rintro ⟨c, hc, hfinish'⟩
  by_contra hblank
  obtain ⟨blanks, hne, hblanks, htrim⟩ := trimXml_append_of_not_noBlankBetween hblank
  have hunescape : unescape? (trimXml (left ++ right)) = some (text ++ (blanks ++ more)) := by
    rw [htrim]
    exact unescape?_append_eq_some htext
      (unescape?_append_eq_some (unescape?_blanks hblanks) hmore)
  rw [outcome?_content_run hcontent hboth hafter hinside hunescape] at hc
  have htexts : text ++ more ≠ text ++ (blanks ++ more) := by simpa using hne
  exact finish_pushText_ne hopened htexts hb hfinish hc hfinish'

/-- A comment in the content of an element is read as if neither it nor the blanks around it were
there. So it leaves no trace if and only if no blank separates text on its two sides. -/
theorem read_comment {before left comment after : String} {e : Element}
    (hbefore : OpensElement before.toList) (hleft : '<' ∉ left.toList)
    (hcomment : ¬ ['-', '-'] <:+: comment.toList)
    (h : read (before ++ left ++ "<!--" ++ comment ++ "-->" ++ after) = .ok e) :
    read (before ++ String.ofList (closeUp left.toList after.toList)) = .ok e ∧
      (read (before ++ left ++ after) = .ok e ↔
        NoBlankBetween left.toList (after.toList.takeWhile (· != '<'))) := by
  have hright : '<' ∉ after.toList.takeWhile (· != '<') := fun hmem =>
    absurd (List.mem_takeWhile_imp hmem) (by decide)
  have hends : EndsRun (after.toList.dropWhile (· != '<')) := by
    intro c hc
    simpa using head?_dropWhile _ _ c hc
  have hsplit := List.takeWhile_append_dropWhile (p := (· != '<')) (l := after.toList)
  have hread := @readChars_comment _ _ _ _ _ e hbefore hleft hcomment hright hends
  rw [← closeUp_append hends, List.append_assoc left.toList, hsplit] at hread
  simp only [read, String.toList_append, String.toList_ofList] at h ⊢
  simpa using hread (by simpa using h)

/-- Text and tags stand in front of this comment, and text before a tag behind it. -/
theorem read_comment_order :
    OpensElement "<order><size>large</size>".toList ∧ '<' ∉ " pizza".toList ∧
      ¬ ['-', '-'] <:+: " - ".toList ∧
      read ("<order><size>large</size>" ++ " pizza" ++ "<!--" ++ " - " ++ "-->" ++
        ", hot </order>") =
          .ok ⟨"order", [], [.element "size" [] [.text "large"], .text "pizza, hot"]⟩ ∧
      read ("<order><size>large</size>" ++ String.ofList (closeUp " pizza".toList
        ", hot </order>".toList)) =
          .ok ⟨"order", [], [.element "size" [] [.text "large"], .text "pizza, hot"]⟩ ∧
      (read ("<order><size>large</size>" ++ " pizza" ++ ", hot </order>") =
          .ok ⟨"order", [], [.element "size" [] [.text "large"], .text "pizza, hot"]⟩ ↔
        NoBlankBetween " pizza".toList (", hot </order>".toList.takeWhile (· != '<'))) := by
  have hbefore : OpensElement "<order><size>large</size>".toList := by
    refine ⟨?_, 0, by decide +kernel⟩
    have horder : IsMarkup "order>".toList :=
      ⟨0, some (.startTag "order".toList []), 7, [], by decide +kernel⟩
    have hsize : IsMarkup "size>".toList :=
      ⟨0, some (.startTag "size".toList []), 6, [], by decide +kernel⟩
    have hend : IsMarkup "/size>".toList :=
      ⟨0, some (.endTag "size".toList 0), 7, [], by decide +kernel⟩
    have hcontent : IsContent ([] ++ '<' :: ("order>".toList ++ ([] ++ '<' :: ("size>".toList ++
        ("large".toList ++ '<' :: ("/size>".toList ++ [])))))) :=
      .cons (by decide) horder (.cons (by decide) hsize (.cons (by decide) hend .nil))
    exact hcontent
  have hleft : '<' ∉ " pizza".toList := by decide
  have hcomment : ¬ ['-', '-'] <:+: " - ".toList := by decide
  have hread : read ("<order><size>large</size>" ++ " pizza" ++ "<!--" ++ " - " ++ "-->" ++
      ", hot </order>") =
        .ok ⟨"order", [], [.element "size" [] [.text "large"], .text "pizza, hot"]⟩ := by
    decide +kernel
  exact ⟨hbefore, hleft, hcomment, hread, read_comment hbefore hleft hcomment hread⟩

/-- A comment between two words leaves a trace: the blanks between them are gone. -/
theorem read_comment_ne :
    (read "<a>hello <!-- x --> world</a>" = .ok ⟨"a", [], [.text "helloworld"]⟩ ∧
      read "<a>hello  world</a>" = .ok ⟨"a", [], [.text "hello  world"]⟩) ∧
    ¬ ∀ (before left comment after : String) (e f : Element), OpensElement before.toList →
      '<' ∉ left.toList → ¬ ['-', '-'] <:+: comment.toList →
        read (before ++ left ++ "<!--" ++ comment ++ "-->" ++ after) = .ok e →
          read (before ++ left ++ after) = .ok f → e = f := by
  have hread : read "<a>hello <!-- x --> world</a>" = .ok ⟨"a", [], [.text "helloworld"]⟩ := by
    decide +kernel
  have hread' : read "<a>hello  world</a>" = .ok ⟨"a", [], [.text "hello  world"]⟩ := by
    decide +kernel
  have hbefore : OpensElement "<a>".toList := by
    have ha : IsMarkup "a>".toList := ⟨0, some (.startTag "a".toList []), 3, [], by decide +kernel⟩
    exact ⟨@IsContent.cons [] "a>".toList [] (by decide) ha .nil, 0, by decide +kernel⟩
  refine ⟨⟨hread, hread'⟩, fun hsame => ?_⟩
  have heq := hsame "<a>" "hello " " x " " world</a>" _ _ hbefore (by decide) (by decide) hread
    hread'
  exact absurd heq (by decide)

end SpeechGrammar.Markup
