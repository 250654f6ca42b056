import SpeechGrammar.Proofs.Grammar.Document
import SpeechGrammar.Proofs.NormalForm
import SpeechGrammar.Proofs.Pattern.TextPass

set_option autoImplicit false

/-!
# Patterns of grammars that are read back

A grammar that is written and read back has the same pattern, as long as joining raw texts that
stand side by side keeps their words apart (`KeptApart`). In a choice each text is an alternative, so
there no two texts may meet, and none may be blank. A grammar whose rules hold no raw text has
nothing to join, and a prepared grammar is such a grammar.
-/

namespace SpeechGrammar

open Text Regex

variable {sep : Separator} {refs : String → Except Error (List Char)}

/-! ## Texts that are kept apart -/

/-- The node is raw text. -/
def Node.isRaw : Node → Bool
  | .literal _ => true
  | _ => false

/-- The node is raw text with nothing but XML blanks in it. -/
def Node.isBlankRaw : Node → Bool
  | .literal s => (Markup.trimXml s.toList).isEmpty
  | _ => false

/-- The words of raw text. -/
def rawWords (cs : List Char) : List Word := (tokenChars cs).flatMap words

/-- The runs of raw texts that stand side by side, the first of them behind other texts. A run is
empty where two other nodes meet. -/
def rawRunsFrom (texts : List String) : List Node → List (List String)
  | [] => [texts]
  | .literal s :: ns => rawRunsFrom (texts ++ [s]) ns
  | _ :: ns => texts :: rawRunsFrom [] ns

/-- The texts of each run are written with the same words when they are joined. -/
def RunsApart (sep : Separator) (runs : List (List String)) : Prop :=
  ∀ texts ∈ runs, sep.written (rawWords (texts.flatMap String.toList)) =
    sep.written (texts.flatMap fun s => rawWords s.toList)

/-- Each raw text stays an alternative of its own: it is not blank, and no other raw text stands
next to it. -/
def AlternativesApart (nodes : List Node) : Prop :=
  nodes.IsChain (fun a b => ¬ (a.isRaw ∧ b.isRaw)) ∧ ∀ n ∈ nodes, ¬ n.isBlankRaw

/-- Raw texts directly in the node, if it is an element, are kept apart. -/
def Node.KeepsApart (sep : Separator) : Node → Prop
  | .element .oneOf children => AlternativesApart children
  | .element _ children => RunsApart sep (rawRunsFrom [] children)
  | _ => True

/-- Raw texts are kept apart at every depth. -/
def KeptApart (sep : Separator) (body : List Node) : Prop :=
  RunsApart sep (rawRunsFrom [] body) ∧ ∀ n ∈ walkAll body, n.KeepsApart sep

instance (sep : Separator) (runs : List (List String)) : Decidable (RunsApart sep runs) :=
  inferInstanceAs (Decidable (∀ _ ∈ runs, _))

instance (nodes : List Node) : Decidable (AlternativesApart nodes) :=
  inferInstanceAs (Decidable (_ ∧ _))

instance (sep : Separator) : DecidablePred (Node.KeepsApart sep)
  | .element .oneOf children => inferInstanceAs (Decidable (AlternativesApart children))
  | .element (.item _) _ | .element (.foreign _ _) _ => inferInstanceAs (Decidable (RunsApart _ _))
  | .literal _ | .token _ | .ruleRef _ | .tag _ => inferInstanceAs (Decidable True)

instance (sep : Separator) (body : List Node) : Decidable (KeptApart sep body) :=
  inferInstanceAs (Decidable (_ ∧ _))

/-- No raw text is left among the nodes or below them. -/
def Tokenized (nodes : List Node) : Prop := ∀ n ∈ walkAll nodes, ∀ s, n ≠ .literal s

theorem Tokenized.of_mem {nodes : List Node} (h : Tokenized nodes) :
    ∀ n ∈ nodes, ∀ s, n ≠ .literal s := by
  intro n hn
  have hself : n ∈ n.walk := by cases n <;> simp [Node.walk]
  exact h n (mem_walkAll.2 ⟨n, hn, hself⟩)

theorem rawRunsFrom_cons {n : Node} (hn : ∀ s, n ≠ .literal s) (texts : List String)
    (ns : List Node) : rawRunsFrom texts (n :: ns) = texts :: rawRunsFrom [] ns := by
  rw [rawRunsFrom]
  exact hn

theorem runsApart_of_ne_literal {nodes : List Node} (h : ∀ n ∈ nodes, ∀ s, n ≠ .literal s) :
    RunsApart sep (rawRunsFrom [] nodes) := by
  induction nodes with
  | nil => exact List.forall_mem_singleton.2 rfl
  | cons n nodes ih =>
      rw [List.forall_mem_cons] at h
      rw [rawRunsFrom_cons h.1]
      exact List.forall_mem_cons.2 ⟨rfl, ih h.2⟩

theorem alternativesApart_of_ne_literal {nodes : List Node}
    (h : ∀ n ∈ nodes, ∀ s, n ≠ .literal s) : AlternativesApart nodes := by
  have hraw : ∀ n ∈ nodes, n.isRaw = false ∧ n.isBlankRaw = false := by
    intro n hn
    cases n with
    | literal s => exact absurd rfl (h _ hn s)
    | token _ | ruleRef _ | tag _ | element _ _ => exact ⟨rfl, rfl⟩
  refine ⟨?_, fun n hn => by simp [(hraw n hn).2]⟩
  rw [List.isChain_iff_getElem]
  intro i hi
  simp [(hraw _ (List.getElem_mem _)).1]

mutual

theorem keepsApart_of_tokenized : ∀ n : Node, (∀ m ∈ n.walk, ∀ s, m ≠ .literal s) →
    ∀ m ∈ n.walk, m.KeepsApart sep
  | .literal s, h => absurd rfl (h (.literal s) (by simp [Node.walk]) s)
  | .token _, _ => by simp [Node.walk, Node.KeepsApart]
  | .ruleRef _, _ => by simp [Node.walk, Node.KeepsApart]
  | .tag _, _ => by simp [Node.walk, Node.KeepsApart]
  | .element container children, h => by
      obtain ⟨-, hchildren⟩ := forall_mem_walk_element.1 h
      refine forall_mem_walk_element.2 ⟨?_, keepsApart_all_of_tokenized children hchildren⟩
      have hdirect := Tokenized.of_mem hchildren
      cases container with
      | oneOf => exact alternativesApart_of_ne_literal hdirect
      | item _ | foreign _ _ => exact runsApart_of_ne_literal hdirect

theorem keepsApart_all_of_tokenized : ∀ ns : List Node, Tokenized ns →
    ∀ m ∈ walkAll ns, m.KeepsApart sep
  | [], _ => by simp [walkAll]
  | n :: ns, h => by
      obtain ⟨hn, hns⟩ := forall_mem_walkAll_cons.1 h
      exact forall_mem_walkAll_cons.2
        ⟨keepsApart_of_tokenized n hn, keepsApart_all_of_tokenized ns hns⟩

end

/-- Where no raw text is left there is nothing to join. -/
theorem keptApart_of_tokenized {body : List Node} (h : Tokenized body) : KeptApart sep body :=
  ⟨runsApart_of_ne_literal h.of_mem, keepsApart_all_of_tokenized body h⟩

/-! ## The fragments of what is read -/

theorem rawWords_trimXml (cs : List Char) : rawWords (Markup.trimXml cs) = rawWords cs := by
  rw [rawWords, Markup.tokenChars_trimXml, rawWords]

/-- A run of raw text is read with its words. -/
theorem sequenceFragmentOver_rawNodes (run : List Char) :
    sequenceFragmentOver sep refs (rawNodes run) = .ok (escape (sep.written (rawWords run))) := by
  rw [rawNodes, ← rawWords_trimXml run]
  split
  · rename_i hempty
    rw [List.isEmpty_iff.1 hempty]
    rfl
  · rw [sequenceFragmentOver_singleton, Node.IsText.fragmentOver_eq (n := .literal _) trivial,
      Node.textWords, String.toList_ofList, rawWords]

theorem sequenceFragmentOver_literals (texts : List String) :
    sequenceFragmentOver sep refs (texts.map Node.literal) =
      .ok (escape (sep.written (texts.flatMap fun s => rawWords s.toList))) := by
  have htext : ∀ k ∈ texts.map Node.literal, k.IsText := by
    intro k hk
    obtain ⟨s, -, rfl⟩ := List.mem_map.1 hk
    trivial
  rw [sequenceFragmentOver_text htext, List.flatMap_map]
  rfl

/-- A sequence behind raw texts is read with its fragment, if joining the texts of each run keeps
their words. -/
theorem sequenceFragmentOver_rereadFrom {ns : List Node}
    (hns : ∀ n ∈ ns, n.reread.fragmentOver sep refs = n.fragmentOver sep refs)
    {texts : List String} (hruns : RunsApart sep (rawRunsFrom texts ns)) :
    sequenceFragmentOver sep refs (rereadFrom (texts.flatMap String.toList) ns) =
      sequenceFragmentOver sep refs (texts.map Node.literal ++ ns) := by
  induction ns generalizing texts with
  | nil =>
      rw [rereadFrom, List.append_nil, sequenceFragmentOver_rawNodes,
        hruns texts (List.mem_singleton_self texts), sequenceFragmentOver_literals]
  | cons n ns ih =>
      rw [List.forall_mem_cons] at hns
      obtain ⟨s, rfl⟩ | hn := n.literal_or_ne_literal
      · have hrest := ih hns.2 hruns
        rw [List.flatMap_append, List.flatMap_singleton, List.map_append, List.map_singleton,
          List.append_assoc, List.singleton_append] at hrest
        exact hrest
      · rw [rawRunsFrom_cons hn, RunsApart, List.forall_mem_cons] at hruns
        have hrest := ih hns.2 hruns.2
        rw [List.flatMap_nil, List.map_nil, List.nil_append] at hrest
        rw [rereadFrom_cons hn, sequenceFragmentOver_append, sequenceFragmentOver_append,
          sequenceFragmentOver_rawNodes, sequenceFragmentOver_literals, hruns.1,
          sequenceFragmentOver, sequenceFragmentOver, hns.1, hrest]

/-- Raw text in front of something else is read by itself. -/
theorem rereadFrom_eq_append {ns : List Node} (h : ∀ s, ns.head? ≠ some (.literal s))
    (text : List Char) : rereadFrom text ns = rawNodes text ++ rereadFrom [] ns := by
  cases ns with
  | nil => simp [rereadFrom, rawNodes, Markup.trimXml, trimBy]
  | cons n ns =>
      have hn : ∀ s, n ≠ .literal s := fun s => by simpa using h s
      rw [rereadFrom_cons hn, rereadFrom_cons hn]
      rfl

theorem AlternativesApart.of_cons {n : Node} {ns : List Node} (h : AlternativesApart (n :: ns)) :
    AlternativesApart ns :=
  ⟨h.1.of_cons, (List.forall_mem_cons.1 h.2).2⟩

/-- The alternatives of a choice are read one by one. -/
theorem alternativeFragmentsOver_rereadFrom {ns : List Node}
    (hns : ∀ n ∈ ns, n.reread.fragmentOver sep refs = n.fragmentOver sep refs)
    (happart : AlternativesApart ns) :
    alternativeFragmentsOver sep refs (rereadFrom [] ns) =
      alternativeFragmentsOver sep refs ns := by
  induction ns with
  | nil => rfl
  | cons n ns ih =>
      rw [List.forall_mem_cons] at hns
      have hrest := ih hns.2 happart.of_cons
      obtain ⟨s, rfl⟩ | hn := n.literal_or_ne_literal
      · have hnext : ∀ t, ns.head? ≠ some (.literal t) := by
          intro t ht
          obtain ⟨ms, rfl⟩ := List.head?_eq_some_iff.1 ht
          exact (List.isChain_cons_cons.1 happart.1).1 ⟨rfl, rfl⟩
        have hraw : rawNodes s.toList = [.literal (trimText s)] :=
          if_neg (happart.2 (.literal s) (List.mem_cons_self ..))
        have hfragment : (Node.literal (trimText s)).fragmentOver sep refs =
            (Node.literal s).fragmentOver sep refs := by
          rw [← sequenceFragmentOver_singleton, ← hraw, sequenceFragmentOver_rawNodes,
            Node.IsText.fragmentOver_eq (n := .literal s) trivial]
          rfl
        rw [rereadFrom, List.nil_append, rereadFrom_eq_append hnext, hraw, List.singleton_append,
          alternativeFragmentsOver_cons (by simp), alternativeFragmentsOver_cons (by simp),
          hfragment, hrest]
      · have hnone : rawNodes [] = [] := rfl
        rw [rereadFrom_cons hn, hnone, List.nil_append]
        obtain ⟨c, rfl⟩ | htag := n.tag_or_ne_tag
        · exact hrest
        · have htag' : ∀ c, n.reread ≠ .tag c := by
            cases n with
            | tag c => exact absurd rfl (htag c)
            | literal _ | token _ | ruleRef _ | element _ _ => simp [Node.reread]
          rw [alternativeFragmentsOver_cons htag, alternativeFragmentsOver_cons htag', hns.1, hrest]

theorem RunsApart.sequenceFragmentOver_eq {ns : List Node}
    (h : RunsApart sep (rawRunsFrom [] ns))
    (hns : ∀ n ∈ ns, n.reread.fragmentOver sep refs = n.fragmentOver sep refs) :
    sequenceFragmentOver sep refs (rereadFrom [] ns) = sequenceFragmentOver sep refs ns :=
  sequenceFragmentOver_rereadFrom hns h

mutual

theorem fragmentOver_reread : ∀ n : Node, (∀ m ∈ n.walk, m.KeepsApart sep) →
    n.reread.fragmentOver sep refs = n.fragmentOver sep refs
  | .literal _, _ => rfl
  | .token text, _ => by
      rw [Node.reread, Node.fragmentOver, Node.fragmentOver, wordFragment, trimText,
        String.toList_ofList, Markup.words_trimXml, wordFragment]
  | .ruleRef _, _ => rfl
  | .tag _, _ => rfl
  | .element (.item occurs) children, h => by
      obtain ⟨happart, hchildren⟩ := forall_mem_walk_element.1 h
      have hsame := RunsApart.sequenceFragmentOver_eq happart
        (fragmentOver_reread_all children hchildren)
      rw [Node.reread, Container.reread, Node.fragmentOver, Node.fragmentOver, hsame]
      simp
  | .element .oneOf children, h => by
      obtain ⟨happart, hchildren⟩ := forall_mem_walk_element.1 h
      have hsame := alternativeFragmentsOver_rereadFrom
        (fragmentOver_reread_all children hchildren) happart
      rw [Node.reread, Container.reread, Node.fragmentOver, Node.fragmentOver, hsame]
      simp
  | .element (.foreign _ _) children, h => by
      obtain ⟨happart, hchildren⟩ := forall_mem_walk_element.1 h
      exact RunsApart.sequenceFragmentOver_eq happart (fragmentOver_reread_all children hchildren)

theorem fragmentOver_reread_all : ∀ ns : List Node, (∀ m ∈ walkAll ns, m.KeepsApart sep) →
    ∀ n ∈ ns, n.reread.fragmentOver sep refs = n.fragmentOver sep refs
  | [], _ => by simp
  | n :: ns, h => by
      obtain ⟨hn, hns⟩ := forall_mem_walkAll_cons.1 h
      exact List.forall_mem_cons.2 ⟨fragmentOver_reread n hn, fragmentOver_reread_all ns hns⟩

end

/-- The body of a rule is read with its fragment, if its raw texts are kept apart. -/
theorem KeptApart.sequenceFragment_eq {body : List Node} (h : KeptApart sep body) :
    sequenceFragment sep (rereadFrom [] body) = sequenceFragment sep body := by
  have hcompiler : ∀ ns : List Node,
      sequenceFragmentOver sep (fun uri => .error (.uninlinedReference uri)) ns =
        sequenceFragment sep ns := fun ns => sequenceFragmentOver_eq ns fun _ _ _ _ => rfl
  rw [← hcompiler, ← hcompiler, h.1.sequenceFragmentOver_eq (fragmentOver_reread_all body h.2)]

/-- A grammar that is read back compiles to the same pattern, if the raw texts of its root rule are
kept apart. -/
theorem compileRule_reread {g : Grammar}
    (h : ∀ rule ∈ g.rootRule?, KeptApart (.ofMode g.mode) rule.body) (options : CompileOptions) :
    compileRule g.reread.rootRule? g.mode options = compileRule g.rootRule? g.mode options := by
  rw [rootRule?_reread]
  cases hroot : g.rootRule? with
  | none => rfl
  | some rule =>
      have hsame : rule.reread.fragment (.ofMode g.mode) = rule.fragment (.ofMode g.mode) :=
        (h rule hroot).sequenceFragment_eq
      rw [Option.map_some, compileRule, compileRule, hsame]

/-! ## Prepared grammars -/

mutual

/-- The node with the content of its tags trimmed, at any depth. -/
def Node.trimTags : Node → Node
  | .tag content => .tag (trimText content)
  | .element container children => .element container (trimTags children)
  | .literal text => .literal text
  | .token text => .token text
  | .ruleRef uri => .ruleRef uri

/-- The nodes with the content of their tags trimmed, at any depth. -/
def trimTags : List Node → List Node
  | [] => []
  | n :: ns => n.trimTags :: trimTags ns

end

theorem trimText_normalize (s : String) : trimText (Text.normalize s) = Text.normalize s := by
  rw [trimText, Text.normalize, String.toList_ofList, Markup.trimXml_normalizeChars]

mutual

theorem reread_eq_trimTags : ∀ n : Node,
    (∀ m ∈ n.walk, m.IsNormal) → (∀ m ∈ n.walk, m.HasDistinctKeys) → n.reread = n.trimTags
  | .literal _, _, _ => rfl
  | .token text, h, _ => by
      have htext : Text.normalize text = text := h (.token text) (by simp [Node.walk])
      rw [Node.reread, Node.trimTags, ← htext, trimText_normalize]
  | .ruleRef _, _, _ => rfl
  | .tag _, _, _ => rfl
  | .element container children, h, hkeys => by
      obtain ⟨-, hchildren⟩ := forall_mem_walk_element.1 h
      obtain ⟨hdistinct, hkeys'⟩ := forall_mem_walk_element.1 hkeys
      have hcontainer : container.reread = container := by
        cases container with
        | item _ | oneOf => rfl
        | foreign name attributes => rw [Container.reread, setAttributes_eq_self hdistinct]
      rw [Node.reread, Node.trimTags, hcontainer, rereadFrom_eq_trimTags children hchildren hkeys']

/-- In normal form nothing is read differently but the tags. -/
theorem rereadFrom_eq_trimTags : ∀ ns : List Node,
    (∀ m ∈ walkAll ns, m.IsNormal) → (∀ m ∈ walkAll ns, m.HasDistinctKeys) →
      rereadFrom [] ns = trimTags ns
  | [], _, _ => rfl
  | n :: ns, h, hkeys => by
      obtain ⟨hn, hns⟩ := forall_mem_walkAll_cons.1 h
      obtain ⟨hkeysn, hkeysns⟩ := forall_mem_walkAll_cons.1 hkeys
      have hnot : ∀ s, n ≠ .literal s := by
        rintro s rfl
        exact hn (.literal s) (by simp [Node.walk])
      have hnone : rawNodes [] = [] := rfl
      rw [rereadFrom_cons hnot, hnone, List.nil_append, trimTags,
        reread_eq_trimTags n hn hkeysn, rereadFrom_eq_trimTags ns hns hkeysns]

end

/-- Tokens are no raw text, so all content in normal form is tokenized. -/
theorem tokenized_of_isNormal {nodes : List Node} (h : ∀ n ∈ walkAll nodes, n.IsNormal) :
    Tokenized nodes := by
  rintro n hn s rfl
  exact h _ hn

theorem mem_children_of_mem_rules {g : Grammar} {rule : Rule} (h : rule ∈ g.rules) :
    .rule rule ∈ g.children := by
  obtain ⟨child, hchild, hrule⟩ := List.mem_filterMap.1 h
  cases child with
  | rule r =>
      cases hrule
      exact hchild
  | node _ => cases hrule

/-- A prepared grammar survives its document. What is read has the same attributes, the same rules
with trimmed tags in them, and the same pattern. -/
theorem parse_render_prepared {g p : Grammar} {report : Report} (hadmitted : g.IsAdmitted)
    (hprepared : g.prepared = .ok (p, report)) (hwritable : p.IsWritable)
    (hkeys : ∀ rule ∈ p.rules, ∀ n ∈ walkAll rule.body, n.HasDistinctKeys) :
    ∃ again, Grammar.parse p.render = .ok again ∧ again.mode = p.mode ∧
      again.language = p.language ∧ again.baseUri = p.baseUri ∧ again.root = p.root ∧
      again.tagFormat = p.tagFormat ∧
      again.rules = p.rules.map (fun rule => { rule with body := trimTags rule.body }) ∧
      again.rootRule? = p.rootRule?.map (fun rule => { rule with body := trimTags rule.body }) ∧
      again.toPattern = p.toPattern ∧
      ∀ options, compileRule again.rootRule? again.mode options =
        compileRule p.rootRule? p.mode options := by
  have hp : p.IsPrepared := isPrepared_of_prepared hprepared
  have hnormal : ∀ rule ∈ p.rules, ∀ n ∈ walkAll rule.body, n.IsNormal := fun rule hrule =>
    hp.content _ (mem_children_of_mem_rules hrule)
  have hread : ∀ rule ∈ p.rules, rule.reread = { rule with body := trimTags rule.body } := by
    intro rule hrule
    rw [Rule.reread, rereadFrom_eq_trimTags rule.body (hnormal rule hrule) (hkeys rule hrule)]
  have hroot : p.reread.rootRule? =
      p.rootRule?.map fun rule => { rule with body := trimTags rule.body } := by
    rw [rootRule?_reread]
    exact Option.map_congr fun rule hrule => hread rule (mem_rules_of_rootRule? hrule)
  have hapart : ∀ rule ∈ p.rootRule?, KeptApart (.ofMode p.mode) rule.body := fun rule hrule =>
    keptApart_of_tokenized (tokenized_of_isNormal (hnormal rule (mem_rules_of_rootRule? hrule)))
  refine ⟨p.reread, parse_render ?_ hwritable, rfl, rfl, rfl, rfl, rfl, ?_, hroot, ?_, ?_⟩
  · exact Edit.isAdmitted_apply .prepare hadmitted (map_eq_ok.2 ⟨_, hprepared, rfl⟩)
  · rw [rules_reread]
    exact List.map_congr_left hread
  · exact compileRule_reread hapart {}
  · exact compileRule_reread hapart

/-- The rule for an order of up to two cups. -/
def orderRule (cup : List Node) : Rule :=
  { id := "order"
    scope := .isPublic
    body := [.tag " out = \"<order>\";\n", .element (.item (some ⟨0, some 2⟩)) cup,
      .element (.foreign "example" [("lang", "\"en\""), ("x:y", "a & b")]) [.tag "\t"]] }

/-- A grammar with characters of markup in its language, its words, its tags and its attributes. -/
def orderGrammar : Grammar :=
  { mode := some .voice
    language := some "<en>"
    root := some "order"
    children := [.rule { id := "cup", body := [.literal " \"one  cup\" & more"] },
      .rule (orderRule [.ruleRef "#cup"]), .node (.literal " a  b")] }

/-- The same grammar once it has been prepared. -/
def preparedOrder : Grammar :=
  { orderGrammar with
    children := [.rule (orderRule [.token "one cup", .token "&", .token "more"]),
      .node (.literal "a b")] }

theorem prepared_orderGrammar : ∃ report, orderGrammar.prepared = .ok (preparedOrder, report) := by
  have hinline : inlineChildren orderGrammar.root orderGrammar.children =
      .ok [.rule (orderRule [.literal " \"one  cup\" & more"]), .node (.literal " a  b")] := by
    cbv
  refine prepared_eq_ok_iff.2 ⟨_, hinline, ?_⟩
  decide +kernel

theorem parse_render_prepared_orderGrammar :
    orderGrammar.IsAdmitted ∧ preparedOrder.IsWritable ∧
      ∃ report again, orderGrammar.prepared = .ok (preparedOrder, report) ∧
        Grammar.parse preparedOrder.render = .ok again ∧
        again.rules = [{ orderRule [] with
          body := [.tag "out = \"<order>\";",
            .element (.item (some ⟨0, some 2⟩)) [.token "one cup", .token "&", .token "more"],
            .element (.foreign "example" [("lang", "\"en\""), ("x:y", "a & b")]) [.tag ""]] }] ∧
        again.toPattern = preparedOrder.toPattern := by
  obtain ⟨report, hprepared⟩ := prepared_orderGrammar
  have hadmitted : orderGrammar.IsAdmitted := by
    rw [Grammar.IsAdmitted]
    decide
  have hwritable : preparedOrder.IsWritable := by decide +kernel
  obtain ⟨again, hparse, -, -, -, -, -, hrules, -, hpattern, -⟩ :=
    parse_render_prepared hadmitted hprepared hwritable (by decide +kernel)
  refine ⟨hadmitted, hwritable, report, again, hprepared, hparse, ?_, hpattern⟩
  rw [hrules]
  decide +kernel

end SpeechGrammar
