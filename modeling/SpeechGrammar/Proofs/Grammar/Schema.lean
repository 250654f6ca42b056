import SpeechGrammar.Proofs.Grammar.Document

set_option autoImplicit false

/-!
# Which documents are grammars

An element is read as a grammar exactly if it keeps to the rules of the format
(`Markup.Element.IsGrammar`), which are stated here on the tree alone, and the children of the
grammar then correspond to the children of the element one to one and in order
(`ofMarkup_accepts_schema`). Below the top level, the rules are about the elements that are looked
at: the content of a token, a tag or a reference may be anything.
-/

namespace SpeechGrammar

open Markup (lookup? textContents)

/-! ## The rules of the format -/

/-- The elements whose children are not read as nodes. -/
def closedNames : List String := ["token", "tag", "ruleref"]

mutual

/-- The elements of content that are looked at, parents first. -/
def Markup.Node.inspected : Markup.Node → List Markup.Element
  | .text _ => []
  | .element name attributes children =>
      ⟨name, attributes, children⟩ :: if name ∈ closedNames then [] else inspectedAll children

/-- The elements of a list of nodes that are looked at, parents first. -/
def inspectedAll : List Markup.Node → List Markup.Element
  | [] => []
  | m :: ms => m.inspected ++ inspectedAll ms

end

/-- The element may stand in the content of a rule. -/
structure Markup.Element.IsContent (e : Markup.Element) : Prop where
  notRule : e.name ≠ "rule"
  uri : e.name = "ruleref" → e.attr? "uri" ≠ none
  occurs : e.name = "item" → ∀ value, e.attr? "repeat" = some value → Repeat.parse? value ≠ none

/-- The element may stand directly in a grammar. -/
structure Markup.Element.IsTopLevel (e : Markup.Element) : Prop where
  name : e.name ∉ ["token", "ruleref", "item", "one-of"]
  id : e.name = "rule" → ∃ id, e.attr? "id" = some id ∧ id ≠ ""
  scope : e.name = "rule" →
    ∀ scope, e.attr? "scope" = some scope → scope = "public" ∨ scope = "private"
  content : e.name ≠ "tag" → ∀ inner ∈ inspectedAll e.children, inner.IsContent

/-- The element is a grammar of the format. -/
structure Markup.Element.IsGrammar (e : Markup.Element) : Prop where
  name : e.name = "grammar"
  xmlns : ∀ uri, e.attr? "xmlns" = some uri → uri = grammarNamespace
  mode : ∀ mode, e.attr? "mode" = some mode → mode = "voice" ∨ mode = "dtmf"
  children : ∀ child ∈ e.childElements, child.IsTopLevel

theorem forall_mem_inspected_element {P : Markup.Element → Prop} {name : String}
    {attributes : List (String × String)} {children : List Markup.Node} :
    (∀ e ∈ (Markup.Node.element name attributes children).inspected, P e) ↔
      P ⟨name, attributes, children⟩ ∧
        (name ∉ closedNames → ∀ e ∈ inspectedAll children, P e) := by
  rw [Markup.Node.inspected, List.forall_mem_cons]
  by_cases hname : name ∈ closedNames
  · simp [hname]
  · simp [hname]

theorem exists_readOccurs_eq_ok_iff {value? : Option String} :
    (∃ occurs?, readOccurs value? = .ok occurs?) ↔
      ∀ value, value? = some value → Repeat.parse? value ≠ none := by
  simp only [readOccurs_eq_ok_iff]
  cases value? with
  | none => simp
  | some value => simp [Option.ne_none_iff_exists']

theorem exists_map_eq_ok {ε α β : Type} {x : Except ε α} {f : α → β} :
    (∃ b, x.map f = .ok b) ↔ ∃ a, x = .ok a := by
  cases x with
  | error e => simp [Except.map]
  | ok a => simp [Except.map]

/-- One element is read if it may stand in content and its children, if they are looked at, are
read. -/
theorem exists_ofMarkup_element_iff {name : String} {attributes : List (String × String)}
    {children : List Markup.Node} :
    (∃ n, Node.ofMarkup (.element name attributes children) = .ok n) ↔
      Markup.Element.IsContent ⟨name, attributes, children⟩ ∧
        (name ∉ closedNames → ∃ ns, nodesOfMarkup children = .ok ns) := by
  have hcontent : Markup.Element.IsContent ⟨name, attributes, children⟩ ↔ name ≠ "rule" ∧
      (name = "ruleref" → lookup? "uri" attributes ≠ none) ∧
        (name = "item" → ∃ occurs?, readOccurs (lookup? "repeat" attributes) = .ok occurs?) := by
    rw [exists_readOccurs_eq_ok_iff]
    exact ⟨fun h => ⟨h.notRule, h.uri, h.occurs⟩, fun h => ⟨h.1, h.2.1, h.2.2⟩⟩
  rw [hcontent, Node.ofMarkup]
  -- One case for each name, in the order in which reading asks for them.
  by_cases hrule : name = "rule"
  · simp [hrule]
  by_cases htoken : name = "token"
  · simp [htoken, closedNames]
  by_cases htag : name = "tag"
  · simp [htag, closedNames]
  by_cases href : name = "ruleref"
  · cases huri : lookup? "uri" attributes with
    | none => simp [href]
    | some uri => simp [href, closedNames]
  have hopen : name ∉ closedNames := by simp [closedNames, htoken, htag, href]
  by_cases hitem : name = "item"
  · cases readOccurs (lookup? "repeat" attributes) with
    | error e => simp [hitem, Except.bind]
    | ok occurs? => simp [hitem, Except.bind, exists_map_eq_ok, closedNames]
  by_cases hone : name = "one-of"
  · simp [hone, exists_map_eq_ok, closedNames]
  · simp [hrule, htoken, htag, href, hitem, hone, exists_map_eq_ok, hopen]

mutual

theorem exists_ofMarkup_iff : ∀ m : Markup.Node,
    (∃ n, Node.ofMarkup m = .ok n) ↔ ∀ e ∈ m.inspected, e.IsContent
  | .text s => by simp [Node.ofMarkup, Markup.Node.inspected]
  | .element name attributes children => by
      rw [forall_mem_inspected_element, exists_ofMarkup_element_iff,
        exists_nodesOfMarkup_iff children]

theorem exists_nodesOfMarkup_iff : ∀ ms : List Markup.Node,
    (∃ ns, nodesOfMarkup ms = .ok ns) ↔ ∀ e ∈ inspectedAll ms, e.IsContent
  | [] => by simp [nodesOfMarkup, inspectedAll]
  | m :: ms => by
      rw [inspectedAll, List.forall_mem_append, ← exists_ofMarkup_iff m,
        ← exists_nodesOfMarkup_iff ms]
      simp only [nodesOfMarkup, bind_eq_ok, map_eq_ok]
      constructor
      · rintro ⟨_, n, hn, rest, hrest, rfl⟩
        exact ⟨⟨n, hn⟩, rest, hrest⟩
      · rintro ⟨⟨n, hn⟩, rest, hrest⟩
        exact ⟨_, n, hn, rest, hrest, rfl⟩

end

/-! ## Children and grammars -/

theorem exists_scope_iff {value? : Option String} :
    (∃ scope, value?.elim (some Scope.isPrivate) Scope.ofName? = some scope) ↔
      ∀ name, value? = some name → name = "public" ∨ name = "private" := by
  cases value? with
  | none => simp
  | some name =>
      by_cases hpublic : name = "public"
      · simp [Scope.ofName?, hpublic]
      · by_cases hprivate : name = "private"
        · simp [Scope.ofName?, hprivate]
        · simp [Scope.ofName?, hpublic, hprivate]

theorem exists_mode_iff {e : Markup.Element} : (∃ g, Grammar.ofAttributes e = .ok g) ↔
    ∀ name, e.attr? "mode" = some name → name = "voice" ∨ name = "dtmf" := by
  rw [Grammar.ofAttributes]
  cases e.attr? "mode" with
  | none => simp
  | some name =>
      by_cases hvoice : name = "voice"
      · simp [Grammar.setModeName, Mode.ofName?, hvoice]
      · by_cases hdtmf : name = "dtmf"
        · simp [Grammar.setModeName, Mode.ofName?, hdtmf]
        · simp [Grammar.setModeName, Mode.ofName?, hvoice, hdtmf]

theorem forall_inspected_of_corresponds {children : List Markup.Node} {nodes : List Node}
    (h : List.Forall₂ Corresponds children nodes) :
    ∀ e ∈ inspectedAll children, e.IsContent :=
  (exists_nodesOfMarkup_iff children).1 ⟨nodes, (nodesOfMarkup_eq_ok_iff _ _).2 h⟩

theorem exists_corresponds_of_inspected {children : List Markup.Node}
    (h : ∀ e ∈ inspectedAll children, e.IsContent) :
    ∃ nodes, List.Forall₂ Corresponds children nodes := by
  obtain ⟨nodes, hnodes⟩ := (exists_nodesOfMarkup_iff children).2 h
  exact ⟨nodes, (nodesOfMarkup_eq_ok_iff _ _).1 hnodes⟩

/-- An element is read as a child of a grammar if it may stand there. -/
theorem exists_readsAs_element_iff {name : String} {attributes : List (String × String)}
    {children : List Markup.Node} :
    (∃ c, ReadsAs (.element name attributes children) c) ↔
      Markup.Element.IsTopLevel ⟨name, attributes, children⟩ := by
  constructor
  · rintro ⟨c, hread, hadmits⟩
    cases childOfMarkup_eq_ok_iff.1 hread with
    | rule hid hne hscope hbody =>
        exact ⟨by simp, fun _ => ⟨_, hid, hne⟩, fun _ => exists_scope_iff.1 ⟨_, hscope⟩,
          fun _ => forall_inspected_of_corresponds hbody⟩
    | node hn =>
        cases hn with
        | tag => exact ⟨by simp, by simp, by simp, fun htag => absurd rfl htag⟩
        | foreign _ hname hchildren =>
            simp only [vocabulary, List.mem_cons, List.not_mem_nil, or_false, not_or] at hname
            exact ⟨by simp [hname], fun hrule => absurd hrule hname.1,
              fun hrule => absurd hrule hname.1, fun _ => forall_inspected_of_corresponds hchildren⟩
        -- All others are read but do not pass the guard.
        | token | ruleRef | item | repeated | oneOf => cases hadmits
  · intro h
    by_cases hrule : name = "rule"
    · subst hrule
      obtain ⟨id, hid, hne⟩ := h.id rfl
      obtain ⟨scope, hscope⟩ := exists_scope_iff.2 (h.scope rfl)
      obtain ⟨body, hbody⟩ := exists_corresponds_of_inspected (h.content (by simp))
      exact ⟨_, childOfMarkup_eq_ok_iff.2 (.rule hid hne hscope hbody), rfl⟩
    by_cases htag : name = "tag"
    · subst htag
      exact ⟨_, childOfMarkup_eq_ok_iff.2 (.node (.tag attributes children)), rfl⟩
    · have hname : name ∉ vocabulary := by
        have hlist := h.name
        simp only [List.mem_cons, List.not_mem_nil, or_false, not_or] at hlist
        simp [vocabulary, hrule, htag, hlist]
      obtain ⟨nodes, hnodes⟩ := exists_corresponds_of_inspected (h.content htag)
      exact ⟨_, childOfMarkup_eq_ok_iff.2 (.node (.foreign attributes hname hnodes)), rfl⟩

theorem exists_forall₂_iff {α β : Type} {R : α → β → Prop} {as : List α} :
    (∃ bs, List.Forall₂ R as bs) ↔ ∀ a ∈ as, ∃ b, R a b := by
  induction as with
  | nil => simp
  | cons a as ih =>
      rw [List.forall_mem_cons, ← ih]
      simp only [List.forall₂_cons_left_iff]
      constructor
      · rintro ⟨_, b, bs, hb, hbs, rfl⟩
        exact ⟨⟨b, hb⟩, bs, hbs⟩
      · rintro ⟨⟨b, hb⟩, bs, hbs⟩
        exact ⟨_, b, bs, hb, hbs, rfl⟩

/-- All children of an element are read if those that are elements may stand in a grammar. -/
theorem exists_readsAs_iff {e : Markup.Element} :
    (∃ children, List.Forall₂ ReadsAs e.children children) ↔
      ∀ child ∈ e.childElements, child.IsTopLevel := by
  rw [exists_forall₂_iff]
  constructor
  · intro h child hchild
    obtain ⟨m, hm, hsome⟩ := List.mem_filterMap.1 hchild
    cases m with
    | text s => cases hsome
    | element name attributes children =>
        cases hsome
        exact exists_readsAs_element_iff.1 (h _ hm)
  · intro h m hm
    cases m with
    | text s => exact ⟨.node (.literal s), rfl, rfl⟩
    | element name attributes children =>
        exact exists_readsAs_element_iff.2 (h _ (List.mem_filterMap.2 ⟨_, hm, rfl⟩))

/-- An element is read as a grammar exactly if it keeps to the rules of the format, and then the
children of the grammar are, one by one, what is read of the children of the element. -/
theorem ofMarkup_accepts_schema (e : Markup.Element) :
    ((∃ g, Grammar.ofMarkup e = .ok g) ↔ e.IsGrammar) ∧
      ∀ g, Grammar.ofMarkup e = .ok g → List.Forall₂ Child.Corresponds e.children g.children := by
  constructor
  · simp only [Grammar.ofMarkup_eq_ok_iff]
    constructor
    · rintro ⟨g, hname, hspace, start, children, hstart, hchildren, -⟩
      exact ⟨hname, hspace, exists_mode_iff.1 ⟨start, hstart⟩,
        exists_readsAs_iff.1 ⟨children, hchildren⟩⟩
    · intro h
      obtain ⟨start, hstart⟩ := exists_mode_iff.2 h.mode
      obtain ⟨children, hchildren⟩ := exists_readsAs_iff.2 h.children
      exact ⟨_, h.name, h.xmlns, start, children, hstart, hchildren, rfl⟩
  · intro g h
    obtain ⟨-, -, start, children, -, hchildren, rfl⟩ := Grammar.ofMarkup_eq_ok_iff.1 h
    exact hchildren.imp fun m c hread => childOfMarkup_eq_ok_iff.1 hread.1

/-- A grammar with a rule, a tag and a foreign element. What looks like a rule in the tag and in the
token is only text there. -/
def noticeElement : Markup.Element :=
  { name := "grammar"
    attributes := [("mode", "dtmf")]
    children := [.text " ",
      .element "rule" [("id", "a"), ("scope", "public")]
        [.element "item" [("repeat", "0-2")] [.element "ruleref" [("uri", "#b")] []]],
      .element "tag" [] [.element "rule" [] [.text "x"]],
      .element "notice" [("k", "v")] [.element "token" [] [.element "rule" [] [.text "y"]]]] }

def noticeGrammar : Grammar :=
  { mode := some .dtmf
    children := [.node (.literal " "),
      .rule { id := "a", scope := .isPublic,
              body := [.element (.item (some ⟨0, some 2⟩)) [.ruleRef "#b"]] },
      .node (.tag "x"),
      .node (.element (.foreign "notice" [("k", "v")]) [.token "y"])] }

theorem ofMarkup_accepts_schema_noticeElement :
    noticeElement.IsGrammar ∧ Grammar.ofMarkup noticeElement = .ok noticeGrammar ∧
      List.Forall₂ Child.Corresponds noticeElement.children noticeGrammar.children := by
  have hread : Grammar.ofMarkup noticeElement = .ok noticeGrammar := by decide +kernel
  obtain ⟨haccepted, hchildren⟩ := ofMarkup_accepts_schema noticeElement
  exact ⟨haccepted.1 ⟨_, hread⟩, hread, hchildren _ hread⟩

end SpeechGrammar
