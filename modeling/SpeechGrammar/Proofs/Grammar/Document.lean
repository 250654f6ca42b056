import SpeechGrammar.Proofs.Grammar.Edit
import SpeechGrammar.Proofs.Grammar.Reading
import SpeechGrammar.Proofs.Markup.Reader

set_option autoImplicit false

/-!
# A written grammar is read back

Writing a grammar and reading it back gives a grammar again (`parse_render`), if what it holds can
be written: rules with ids, repeat counts in order, and foreign elements with plain names that the
format does not define. The grammar that is read has the same attributes and the same rules, with
other text in them: raw texts side by side become one, and raw text, tokens and tags lose the blanks
at their ends (`Grammar.reread`).
-/

namespace SpeechGrammar

open Text

/-! ## What can be written -/

/-- The tag of the container can be written and is read as this container. -/
def Container.IsWritable : Container → Prop
  | .item none => True
  | .item (some r) => r.isOrdered = true
  | .oneOf => True
  | .foreign name attributes => Markup.IsPlainName name ∧ name ∉ vocabulary ∧
      ∀ entry ∈ attributes, Markup.IsPlainKey entry.1

/-- The tag of the node, if it is an element, can be written. -/
def Node.IsWritable : Node → Prop
  | .element container _ => container.IsWritable
  | _ => True

/-- The child and all that is below it can be written. -/
def Child.IsWritable : Child → Prop
  | .rule r => r.id ≠ "" ∧ ∀ n ∈ walkAll r.body, n.IsWritable
  | .node n => ∀ m ∈ n.walk, m.IsWritable

/-- All that the grammar holds can be written. -/
def Grammar.IsWritable (g : Grammar) : Prop := ∀ child ∈ g.children, child.IsWritable

instance : DecidablePred Container.IsWritable
  | .item none | .oneOf => inferInstanceAs (Decidable True)
  | .item (some r) => inferInstanceAs (Decidable (r.isOrdered = true))
  | .foreign _ _ => inferInstanceAs (Decidable (_ ∧ _ ∧ _))

instance : DecidablePred Node.IsWritable
  | .element container _ => inferInstanceAs (Decidable container.IsWritable)
  | .literal _ | .token _ | .ruleRef _ | .tag _ => inferInstanceAs (Decidable True)

instance : DecidablePred Child.IsWritable
  | .rule _ => inferInstanceAs (Decidable (_ ∧ _))
  | .node n => inferInstanceAs (Decidable (∀ m ∈ n.walk, m.IsWritable))

instance (g : Grammar) : Decidable g.IsWritable :=
  inferInstanceAs (Decidable (∀ child ∈ g.children, child.IsWritable))

/-- No key occurs twice among the attributes of a foreign element. -/
def Node.HasDistinctKeys : Node → Prop
  | .element (.foreign _ attributes) _ => (attributes.map Prod.fst).Nodup
  | _ => True

instance : DecidablePred Node.HasDistinctKeys
  | .element (.foreign _ attributes) _ =>
      inferInstanceAs (Decidable (attributes.map Prod.fst).Nodup)
  | .element (.item _) _ | .element .oneOf _ | .literal _ | .token _ | .ruleRef _ | .tag _ =>
      inferInstanceAs (Decidable True)

/-! ## What is read of it -/

/-- A text without the XML blanks at its ends. -/
def trimText (s : String) : String := String.ofList (Markup.trimXml s.toList)

/-- The raw text that is read from a run: nothing if the run is blank. -/
def rawNodes (run : List Char) : List Node :=
  if (Markup.trimXml run).isEmpty then [] else [.literal (String.ofList (Markup.trimXml run))]

/-- A container with each key once. -/
def Container.reread : Container → Container
  | .foreign name attributes => .foreign name (setAttributes attributes)
  | container => container

mutual

/-- What is read of a node. Raw text is not read by itself but as a part of its run. -/
def Node.reread : Node → Node
  | .literal text => .literal text
  | .token text => .token (trimText text)
  | .ruleRef uri => .ruleRef uri
  | .tag content => .tag (trimText content)
  | .element container children => .element container.reread (rereadFrom [] children)

/-- What is read of nodes that stand behind raw text. -/
def rereadFrom (text : List Char) : List Node → List Node
  | [] => rawNodes text
  | .literal s :: ns => rereadFrom (text ++ s.toList) ns
  | n :: ns => rawNodes text ++ n.reread :: rereadFrom [] ns

end

/-- What is read of a rule. -/
def Rule.reread (r : Rule) : Rule := { r with body := rereadFrom [] r.body }

/-- What is read of the children of a grammar that stand behind nodes. -/
def rereadChildrenFrom (nodes : List Node) : List Child → List Child
  | [] => (rereadFrom [] nodes).map Child.node
  | .node n :: children => rereadChildrenFrom (nodes ++ [n]) children
  | .rule r :: children =>
      (rereadFrom [] nodes).map Child.node ++ .rule r.reread :: rereadChildrenFrom [] children

/-- What is read of a grammar. -/
def Grammar.reread (g : Grammar) : Grammar :=
  { g with children := rereadChildrenFrom [] g.children }

theorem Node.literal_or_ne_literal (n : Node) : (∃ s, n = .literal s) ∨ ∀ s, n ≠ .literal s := by
  cases n with
  | literal s => exact .inl ⟨s, rfl⟩
  | token _ | ruleRef _ | tag _ | element _ _ => exact .inr (by simp)

theorem rereadFrom_cons {n : Node} (hn : ∀ s, n ≠ .literal s) (text : List Char)
    (ns : List Node) : rereadFrom text (n :: ns) = rawNodes text ++ n.reread :: rereadFrom [] ns := by
  rw [rereadFrom]
  exact hn

/-! ## Attributes -/

theorem setAttributes_eq_self {attributes : List (String × String)}
    (h : (attributes.map Prod.fst).Nodup) : setAttributes attributes = attributes :=
  Markup.insertAll_eq_append h

/-- Keys that are set again are left once, and nothing else becomes a key. -/
theorem isPlainTag_setAttributes {name : String} {attributes : List (String × String)}
    (hname : Markup.IsPlainName name) (hkeys : ∀ entry ∈ attributes, Markup.IsPlainKey entry.1) :
    Markup.IsPlainTag name (setAttributes attributes) :=
  ⟨hname, Markup.forall_keys_insertAll (by simp) hkeys, Markup.nodup_insertAll (by simp) attributes⟩

theorem Container.IsWritable.isPlainTag {container : Container} (h : container.IsWritable) :
    Markup.IsPlainTag container.name container.attributes := by
  cases container with
  | item occurs =>
      cases occurs with
      | none => exact ⟨by decide, by simp [Container.attributes], by simp [Container.attributes]⟩
      | some r =>
          have hname : Markup.IsPlainName "item" := by decide
          have hkey : Markup.IsPlainKey "repeat" := by decide
          exact ⟨hname, by simpa [Container.attributes] using hkey, by simp [Container.attributes]⟩
  | oneOf => exact ⟨by decide, by simp [Container.attributes], by simp [Container.attributes]⟩
  | foreign name attributes => exact isPlainTag_setAttributes h.1 h.2.2

/-! ## Nodes -/

theorem pushMarkup_eq (done : List Markup.Node) (ns : List Node) :
    pushMarkup done ns = (ns.map Node.toMarkup).foldl Markup.pushNode done := by
  induction ns generalizing done with
  | nil => rfl
  | cons n ns ih => rw [pushMarkup, ih, List.map_cons, List.foldl_cons]

/-- Raw texts are joined before they are written, but they would be read as one anyway. -/
theorem rereadFrom_pushMarkup (ns : List Node) :
    Markup.rereadFrom [] (pushMarkup [] ns) = Markup.rereadFrom [] (ns.map Node.toMarkup) := by
  rw [pushMarkup_eq, Markup.rereadFrom_foldl_pushNode, List.nil_append]

mutual

theorem isPlain_toMarkup : ∀ n : Node, (∀ m ∈ n.walk, m.IsWritable) → n.toMarkup.IsPlain
  | .literal _, _ => trivial
  | .token _, _ => ⟨⟨by decide, by simp, by simp⟩, trivial, trivial⟩
  | .tag _, _ => ⟨⟨by decide, by simp, by simp⟩, trivial, trivial⟩
  | .ruleRef _, _ => by
      have hkey : Markup.IsPlainKey "uri" := by decide
      exact ⟨⟨by decide, by simpa using hkey, by simp⟩, trivial⟩
  | .element container children, h => by
      obtain ⟨hcontainer, hchildren⟩ := forall_mem_walk_element.1 h
      refine ⟨Container.IsWritable.isPlainTag hcontainer, ?_⟩
      rw [pushMarkup_eq]
      exact Markup.allPlain_foldl_pushNode trivial (isPlain_toMarkup_all children hchildren)

theorem isPlain_toMarkup_all : ∀ ns : List Node, (∀ m ∈ walkAll ns, m.IsWritable) →
    ∀ m ∈ ns.map Node.toMarkup, m.IsPlain
  | [], _ => by simp
  | n :: ns, h => by
      obtain ⟨hn, hns⟩ := forall_mem_walkAll_cons.1 h
      exact List.forall_mem_cons.2 ⟨isPlain_toMarkup n hn, isPlain_toMarkup_all ns hns⟩

end

theorem corresponds_textNodes (run : List Char) :
    List.Forall₂ Corresponds (Markup.textNodes run) (rawNodes run) := by
  rw [Markup.textNodes, rawNodes]
  split
  · exact .nil
  · exact .cons (.text _) .nil

/-- The text of a token or a tag is read without the blanks at its ends. -/
theorem textContents_textNodes (s : String) :
    Markup.textContents (Markup.textNodes s.toList) = trimText s := by
  rw [Markup.textNodes, trimText]
  split
  · rename_i hempty
    rw [List.isEmpty_iff.1 hempty]
    rfl
  · simp [Markup.textContents, Markup.Node.textContent]

/-- The container is told from its tag. -/
def Container.IsTold : Container → Prop
  | .item occurs? => ∀ occurs, occurs? = some occurs → occurs.isOrdered = true
  | .oneOf => True
  | .foreign name _ => name ∉ vocabulary

theorem Container.IsWritable.isTold {container : Container} (h : container.IsWritable) :
    container.IsTold := by
  cases container with
  | item occurs? =>
      rintro occurs rfl
      exact h
  | oneOf => trivial
  | foreign _ _ => exact h.2.1

/-- What is read of the element for a container is the container, with each key once. -/
theorem Container.IsTold.corresponds {container : Container} (h : container.IsTold)
    {children : List Markup.Node} {nodes : List Node}
    (hchildren : List.Forall₂ Corresponds children nodes) :
    Corresponds (.element container.name container.attributes children)
      (.element container.reread nodes) := by
  cases container with
  | item occurs? =>
      cases occurs? with
      | none => exact .item rfl hchildren
      | some occurs => exact .repeated rfl (Repeat.parse?_render (h occurs rfl)) hchildren
  | oneOf => exact .oneOf [] hchildren
  | foreign name attributes => exact .foreign _ h hchildren

mutual

theorem corresponds_reread : ∀ n : Node, (∀ m ∈ n.walk, m.IsWritable) →
    Corresponds n.toMarkup.reread n.reread
  | .literal text, _ => .text text
  | .token text, _ => by
      have htoken := Corresponds.token [] (Markup.textNodes text.toList)
      rwa [textContents_textNodes] at htoken
  | .tag content, _ => by
      have htag := Corresponds.tag [] (Markup.textNodes content.toList)
      rwa [textContents_textNodes] at htag
  | .ruleRef uri, _ => .ruleRef _ rfl
  | .element container children, h => by
      obtain ⟨hcontainer, hchildren⟩ := forall_mem_walk_element.1 h
      rw [Node.toMarkup, Markup.Node.reread, rereadFrom_pushMarkup, Node.reread]
      exact (Container.IsWritable.isTold hcontainer).corresponds
        (corresponds_rereadFrom children hchildren [])

/-- Nodes are read back. -/
theorem corresponds_rereadFrom : ∀ ns : List Node, (∀ m ∈ walkAll ns, m.IsWritable) →
    ∀ text, List.Forall₂ Corresponds (Markup.rereadFrom text (ns.map Node.toMarkup))
      (rereadFrom text ns)
  | [], _, text => corresponds_textNodes text
  | n :: ns, h, text => by
      obtain ⟨hn, hns⟩ := forall_mem_walkAll_cons.1 h
      have hread := corresponds_reread n hn
      obtain ⟨s, rfl⟩ | hraw := n.literal_or_ne_literal
      · exact corresponds_rereadFrom ns hns (text ++ s.toList)
      · have hmarkup : ∀ s, n.toMarkup ≠ .text s := by
          cases n with
          | literal s => exact absurd rfl (hraw s)
          | token _ | ruleRef _ | tag _ | element _ _ => simp [Node.toMarkup]
        rw [List.map_cons, Markup.rereadFrom_cons hmarkup, rereadFrom_cons hraw]
        exact List.rel_append (corresponds_textNodes text)
          (.cons hread (corresponds_rereadFrom ns hns []))

end

/-! ## Rules and other children -/

theorem isPlain_ruleToMarkup {r : Rule} (h : (Child.rule r).IsWritable) : r.toMarkup.IsPlain := by
  have hkeys : Markup.IsPlainKey "id" ∧ Markup.IsPlainKey "scope" := by decide
  refine ⟨⟨by decide, by simpa using hkeys, by simp⟩, ?_⟩
  rw [pushMarkup_eq]
  exact Markup.allPlain_foldl_pushNode trivial (isPlain_toMarkup_all r.body h.2)

theorem isPlain_childToMarkup {c : Child} (h : c.IsWritable) : c.toMarkup.IsPlain := by
  cases c with
  | rule r => exact isPlain_ruleToMarkup h
  | node n => exact isPlain_toMarkup n h

/-- A rule is read back. -/
theorem corresponds_rule {r : Rule} (h : (Child.rule r).IsWritable) :
    Child.Corresponds (.element "rule" [("id", r.id), ("scope", r.scope.name)]
      (Markup.rereadFrom [] (pushMarkup [] r.body))) (.rule r.reread) := by
  have hscope : Scope.ofName? r.scope.name = some r.scope := by cases r.scope <;> rfl
  rw [rereadFrom_pushMarkup]
  exact .rule rfl h.1 hscope (corresponds_rereadFrom r.body h.2 [])

/-- What is read of nodes that may stand in a grammar may stand there. -/
theorem admits_reread {ns : List Node} (h : ∀ n ∈ ns, Grammar.admits (.node n) = true)
    (text : List Char) : ∀ n ∈ rereadFrom text ns, Grammar.admits (.node n) = true := by
  have hraw : ∀ run, ∀ n ∈ rawNodes run, Grammar.admits (.node n) = true := by
    intro run n hn
    rw [rawNodes] at hn
    split at hn
    · cases hn
    · rw [List.mem_singleton.1 hn]
      rfl
  induction ns generalizing text with
  | nil => exact hraw text
  | cons n ns ih =>
      rw [List.forall_mem_cons] at h
      obtain ⟨s, rfl⟩ | hn := n.literal_or_ne_literal
      · exact ih h.2 (text ++ s.toList)
      · rw [rereadFrom_cons hn]
        refine List.forall_mem_append.2 ⟨hraw text, List.forall_mem_cons.2 ⟨?_, ih h.2 []⟩⟩
        cases n with
        | literal s => exact absurd rfl (hn s)
        | tag _ => rfl
        | token _ | ruleRef _ => cases h.1
        | element container _ =>
            cases container with
            | foreign _ _ => rfl
            | item _ | oneOf => cases h.1

/-- Nodes that are read and may stand in a grammar are children of it. -/
theorem readsAs_node {ms : List Markup.Node} {ns : List Node}
    (h : List.Forall₂ Corresponds ms ns) (hadmits : ∀ n ∈ ns, Grammar.admits (.node n) = true) :
    List.Forall₂ ReadsAs ms (ns.map Child.node) := by
  induction h with
  | nil => exact .nil
  | cons hn _ ih =>
      rw [List.forall_mem_cons] at hadmits
      exact .cons ⟨childOfMarkup_eq_ok_iff.2 (.node hn), hadmits.1⟩ (ih hadmits.2)

/-- The children of a grammar are read back and go through the guard. -/
theorem readsAs_reread (nodes : List Node) {children : List Child}
    (hnodes : ∀ n ∈ nodes, Grammar.admits (.node n) = true ∧ (Child.node n).IsWritable)
    (hchildren : ∀ c ∈ children, Grammar.admits c = true ∧ c.IsWritable) :
    List.Forall₂ ReadsAs
      (Markup.rereadFrom [] (nodes.map Node.toMarkup ++ children.map Child.toMarkup))
      (rereadChildrenFrom nodes children) := by
  have hread : ∀ nodes : List Node,
      (∀ n ∈ nodes, Grammar.admits (.node n) = true ∧ (Child.node n).IsWritable) →
        List.Forall₂ ReadsAs (Markup.rereadFrom [] (nodes.map Node.toMarkup))
          ((rereadFrom [] nodes).map Child.node) := by
    intro nodes hnodes
    refine readsAs_node (corresponds_rereadFrom nodes ?_ []) ?_
    · intro m hm
      obtain ⟨n, hn, hwalk⟩ := mem_walkAll.1 hm
      exact (hnodes n hn).2 m hwalk
    · exact admits_reread (fun n hn => (hnodes n hn).1) []
  induction children generalizing nodes with
  | nil =>
      rw [List.map_nil, List.append_nil, rereadChildrenFrom]
      exact hread nodes hnodes
  | cons c children ih =>
      rw [List.forall_mem_cons] at hchildren
      cases c with
      | node n =>
          have hmore : ∀ m ∈ nodes ++ [n],
              Grammar.admits (.node m) = true ∧ (Child.node m).IsWritable :=
            List.forall_mem_append.2 ⟨hnodes, by simpa using hchildren.1⟩
          have hrest := ih (nodes ++ [n]) hmore hchildren.2
          rwa [List.map_append, List.append_assoc] at hrest
      | rule r =>
          rw [List.map_cons, Child.toMarkup, Rule.toMarkup, Markup.rereadFrom_append_element,
            rereadChildrenFrom]
          exact List.rel_append (hread nodes hnodes)
            (.cons ⟨childOfMarkup_eq_ok_iff.2 (corresponds_rule hchildren.1.2), rfl⟩
              (ih [] (by simp) hchildren.2))

/-! ## Grammars -/

/-- Setting an attribute with a plain key leaves a tag plain. -/
theorem isPlainTag_setAttr? {e : Markup.Element} (h : Markup.IsPlainTag e.name e.attributes)
    (key : String) (hkey : Markup.IsPlainKey key) (value? : Option String) :
    Markup.IsPlainTag (e.setAttr? key value?).name (e.setAttr? key value?).attributes := by
  cases value? with
  | none => exact h
  | some value =>
      exact ⟨h.name, Markup.forall_keys_insertAttr h.keys hkey _,
        Markup.nodup_insertAttr h.nodup _ _⟩

theorem isPlainTag_grammar (g : Grammar) :
    Markup.IsPlainTag g.toMarkup.name g.toMarkup.attributes := by
  have hstart : Markup.IsPlainTag "grammar" [("xmlns", grammarNamespace), ("version", "1.0")] :=
    ⟨by decide, by decide, by decide⟩
  have hmode := isPlainTag_setAttr? (e := ⟨_, _, []⟩) hstart "mode" (by decide)
    (g.mode.map Mode.name)
  have hlanguage := isPlainTag_setAttr? hmode "xml:lang" (by decide) g.language
  have hbase := isPlainTag_setAttr? hlanguage "xml:base" (by decide) g.baseUri
  have hroot := isPlainTag_setAttr? hbase "root" (by decide) g.root
  rw [Grammar.toMarkup, Markup.Element.pushAll_eq]
  exact isPlainTag_setAttr? hroot "tag-format" (by decide) g.tagFormat

theorem name_toMarkup (g : Grammar) : g.toMarkup.name = "grammar" := by
  simp [Grammar.toMarkup, Markup.Element.pushAll_eq]

theorem children_toMarkup (g : Grammar) :
    g.toMarkup.children = (g.children.map Child.toMarkup).foldl Markup.pushNode [] := by
  simp [Grammar.toMarkup, Markup.Element.pushAll_eq]

/-- Every attribute of a grammar is found in its element. -/
theorem attr?_toMarkup (g : Grammar) :
    g.toMarkup.attr? "xmlns" = some grammarNamespace ∧
      g.toMarkup.attr? "mode" = g.mode.map Mode.name ∧
      g.toMarkup.attr? "xml:lang" = g.language ∧ g.toMarkup.attr? "xml:base" = g.baseUri ∧
      g.toMarkup.attr? "root" = g.root ∧ g.toMarkup.attr? "tag-format" = g.tagFormat := by
  have hpush : ∀ (e : Markup.Element) nodes key, (e.pushAll nodes).attr? key = e.attr? key := by
    intro e nodes key
    rw [Markup.Element.pushAll_eq]
    rfl
  simp only [Grammar.toMarkup, hpush, Markup.attr?_setAttr?]
  simp [Markup.Element.attr?, Markup.lookup?]

theorem ofAttributes_reread (g : Grammar) (children : List Markup.Node) :
    Grammar.ofAttributes { g.toMarkup with children := children } =
      .ok { g with children := [] } := by
  obtain ⟨-, hmode, hlanguage, hbase, hroot, hformat⟩ := attr?_toMarkup g
  have hattr : ∀ key, Markup.Element.attr? { g.toMarkup with children := children } key =
      g.toMarkup.attr? key := fun _ => rfl
  simp only [Grammar.ofAttributes, hattr, hmode, hlanguage, hbase, hroot, hformat]
  obtain ⟨mode, language, baseUri, root, tagFormat, kids⟩ := g
  cases mode with
  | none => rfl
  | some mode => cases mode <;> rfl

theorem isPlain_grammarToMarkup {g : Grammar} (h : g.IsWritable) : g.toMarkup.toNode.IsPlain := by
  refine ⟨isPlainTag_grammar g, ?_⟩
  rw [children_toMarkup]
  refine Markup.allPlain_foldl_pushNode trivial fun m hm => ?_
  obtain ⟨c, hc, rfl⟩ := List.mem_map.1 hm
  exact isPlain_childToMarkup (h c hc)

/-- A grammar that can be written is read back. -/
theorem parse_render {g : Grammar} (hadmitted : g.IsAdmitted) (hwritable : g.IsWritable) :
    Grammar.parse g.render = .ok g.reread := by
  have hroot : Markup.read g.render = .ok
      { g.toMarkup with children := Markup.rereadFrom [] (g.children.map Child.toMarkup) } := by
    rw [Grammar.render, Markup.read_render (isPlain_grammarToMarkup hwritable).isReadable,
      children_toMarkup, Markup.rereadFrom_foldl_pushNode, List.nil_append]
  have hspace : ∀ uri, g.toMarkup.attr? "xmlns" = some uri → uri = grammarNamespace := by
    simp [(attr?_toMarkup g).1]
  have hchildren := readsAs_reread [] (by simp) fun c hc => ⟨hadmitted c hc, hwritable c hc⟩
  rw [Grammar.parse, hroot]
  exact Grammar.ofMarkup_eq_ok_iff.2
    ⟨name_toMarkup g, hspace, _, _, ofAttributes_reread g _, hchildren, rfl⟩

/-- The rules of a grammar are read rule by rule. -/
theorem rules_reread (g : Grammar) : g.reread.rules = g.rules.map Rule.reread := by
  have hread : ∀ (children : List Child) (nodes : List Node),
      rulesOf (rereadChildrenFrom nodes children) = (rulesOf children).map Rule.reread := by
    intro children
    induction children with
    | nil => exact fun nodes => rulesOf_map_node _
    | cons c children ih =>
        intro nodes
        cases c with
        | node n => exact ih (nodes ++ [n])
        | rule r =>
            rw [rereadChildrenFrom, rulesOf_append, rulesOf_map_node, List.nil_append]
            exact congrArg (r.reread :: ·) (ih [])
  exact hread g.children []

theorem rootRule?_reread (g : Grammar) : g.reread.rootRule? = g.rootRule?.map Rule.reread := by
  have hroot : g.reread.root = g.root := rfl
  rw [Grammar.rootRule?, Grammar.rootRule?, hroot]
  cases g.root with
  | none => rfl
  | some id =>
      rw [Option.bind_some, Option.bind_some, Grammar.rule?, Grammar.rule?, rules_reread]
      exact findRule?_map (f := Rule.reread) (fun _ => rfl) id

end SpeechGrammar
