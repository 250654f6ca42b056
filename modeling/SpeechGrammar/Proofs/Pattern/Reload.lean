import SpeechGrammar.Proofs.Pattern.Document

set_option autoImplicit false

/-!
# Grammars between their passes

A grammar that is read from a document with plain names can be written again, whatever passes have
changed it in between (`Grammar.IsWritable.runPasses`). Its pattern is kept if the passes leave its
raw texts apart, and always if one of them tokenizes. Inlining alone can bring raw texts together
that the document then joins to one word.
-/

namespace SpeechGrammar

open Text Regex

/-! ## Plain names -/

namespace Markup

mutual

/-- The names of the node, if it is an element, and of what is below it are plain. -/
def Node.HasPlainNames : Node → Prop
  | .text _ => True
  | .element name attributes children => IsPlainName name ∧
      (∀ entry ∈ attributes, IsPlainKey entry.1) ∧ AllHavePlainNames children

/-- The names of the nodes and of what is below them are plain. -/
def AllHavePlainNames : List Node → Prop
  | [] => True
  | n :: ns => n.HasPlainNames ∧ AllHavePlainNames ns

end

theorem allHavePlainNames_iff {ns : List Node} :
    AllHavePlainNames ns ↔ ∀ n ∈ ns, n.HasPlainNames := by
  induction ns with
  | nil => simp [AllHavePlainNames]
  | cons n ns ih => rw [AllHavePlainNames, ih, List.forall_mem_cons]

theorem hasPlainNames_textNodes (run : List Char) : ∀ n ∈ textNodes run, n.HasPlainNames := by
  intro n hn
  rw [textNodes] at hn
  split at hn
  · cases hn
  · rw [List.mem_singleton.1 hn]
    trivial

mutual

theorem hasPlainNames_reread : ∀ n : Node, n.IsPlain → n.reread.HasPlainNames
  | .text _, _ => trivial
  | .element _ _ children, h =>
      ⟨h.1.name, h.1.keys, allHavePlainNames_iff.2 (hasPlainNames_rereadFrom children h.2 [])⟩

/-- What is read of written nodes has plain names. -/
theorem hasPlainNames_rereadFrom : ∀ ns : List Node, AllPlain ns → ∀ text,
    ∀ n ∈ rereadFrom text ns, n.HasPlainNames
  | [], _, text => hasPlainNames_textNodes text
  | n :: ns, h, text => by
      have hread := hasPlainNames_reread n h.1
      cases n with
      | text s => exact hasPlainNames_rereadFrom ns h.2 (text ++ s.toList)
      | element name attributes children =>
          rw [rereadFrom_cons (by simp)]
          exact List.forall_mem_append.2 ⟨hasPlainNames_textNodes text,
            List.forall_mem_cons.2 ⟨hread, hasPlainNames_rereadFrom ns h.2 []⟩⟩

end

end Markup

/-- The document of a grammar that can be written has plain names. -/
theorem exists_read_render {g : Grammar} (h : g.IsWritable) :
    ∃ e : Markup.Element, Markup.read g.render = .ok e ∧ e.toNode.HasPlainNames := by
  have hplain := isPlain_grammarToMarkup h
  exact ⟨_, Markup.read_render hplain.isReadable, Markup.hasPlainNames_reread _ hplain⟩

/-! ## Reading -/

mutual

theorem isWritable_of_corresponds : ∀ (m : Markup.Node) {n : Node}, m.HasPlainNames →
    Corresponds m n → ∀ k ∈ n.walk, k.IsWritable
  | .text s, n, _, h => by
      cases h
      simp [Node.walk, Node.IsWritable]
  | .element name attributes children, n, hnames, h => by
      obtain ⟨hname, hkeys, hchildren⟩ := hnames
      cases h with
      | token | tag | ruleRef => simp [Node.walk, Node.IsWritable]
      | item _ hnodes | oneOf _ hnodes =>
          exact forall_mem_walk_element.2
            ⟨trivial, isWritable_of_forall₂ children hchildren hnodes⟩
      | repeated _ hparse hnodes =>
          exact forall_mem_walk_element.2
            ⟨isOrdered_of_parse? hparse, isWritable_of_forall₂ children hchildren hnodes⟩
      | foreign _ hnot hnodes =>
          exact forall_mem_walk_element.2
            ⟨⟨hname, hnot, hkeys⟩, isWritable_of_forall₂ children hchildren hnodes⟩

/-- Nodes that are read from elements with plain names can be written. -/
theorem isWritable_of_forall₂ : ∀ (ms : List Markup.Node) {ns : List Node},
    Markup.AllHavePlainNames ms → List.Forall₂ Corresponds ms ns → ∀ k ∈ walkAll ns, k.IsWritable
  | [], ns, _, h => by
      cases h
      simp [walkAll]
  | m :: ms, ns, hnames, h => by
      cases h with
      | cons hn hns =>
          exact forall_mem_walkAll_cons.2
            ⟨isWritable_of_corresponds m hnames.1 hn, isWritable_of_forall₂ ms hnames.2 hns⟩

end

theorem Child.isWritable_ofMarkup {m : Markup.Node} {c : Child} (hnames : m.HasPlainNames)
    (h : Child.ofMarkup m = .ok c) : c.IsWritable := by
  cases childOfMarkup_eq_ok_iff.1 h with
  | rule _ hne _ hbody => exact ⟨hne, isWritable_of_forall₂ _ hnames.2.2 hbody⟩
  | node hn => exact isWritable_of_corresponds m hnames hn

/-- A grammar that is read from a document with plain names can be written. -/
theorem Grammar.isWritable_ofMarkup {e : Markup.Element} {g : Grammar}
    (hnames : e.toNode.HasPlainNames) (h : Grammar.ofMarkup e = .ok g) : g.IsWritable := by
  refine forall_children_ofMarkup h fun node hnode child hchild _ => ?_
  exact Child.isWritable_ofMarkup (Markup.allHavePlainNames_iff.1 hnames.2.2 node hnode) hchild

/-! ## Passes -/

/-- Whether an element can be written depends on its tag only, and text always can. -/
theorem Reworded.isWritable {ns ms : List Node} (h : Reworded ns ms)
    (hns : ∀ n ∈ walkAll ns, n.IsWritable) : ∀ m ∈ walkAll ms, m.IsWritable := by
  refine h.forall_mem_walkAll ?_ (fun _ _ _ _ helement => helement) hns
  intro k hk
  cases k with
  | literal _ | token _ => trivial
  | ruleRef _ | tag _ | element _ _ => cases hk

theorem Grammar.IsWritable.inlined {g h : Grammar} (hg : g.IsWritable)
    (hinline : g.inlined = .ok h) : h.IsWritable := by
  obtain ⟨children, hchildren, rfl⟩ := map_eq_ok.1 hinline
  have hrules : ∀ rule ∈ rulesOf g.children, ∀ n ∈ walkAll rule.body, n.IsWritable :=
    fun rule hrule => (hg _ (mem_children_of_mem_rules hrule)).2
  intro child hchild
  obtain hmem | ⟨rule, body, hmem, hexpands, rfl⟩ :=
    (inlined_of_inlineChildren hchildren).mem_or_expanded hchild
  · exact hg child hmem
  · obtain ⟨hid, hbody⟩ := hg _ hmem
    exact ⟨hid, hexpands.forall_mem_walkAll (fun _ _ _ _ helement => helement) hrules hbody⟩

theorem Grammar.IsWritable.normalized {g : Grammar} (hg : g.IsWritable) :
    g.normalized.IsWritable := by
  intro child hchild
  obtain ⟨c, hc, hmem⟩ := List.mem_flatMap.1 hchild
  cases c with
  | rule r =>
      obtain ⟨hid, hbody⟩ := hg _ hc
      obtain rfl := List.mem_singleton.1 hmem
      exact ⟨hid, (reworded_normalizeNodes r.body).isWritable hbody⟩
  | node n =>
      obtain ⟨k, hk, rfl⟩ := List.mem_map.1 hmem
      have hn : ∀ m ∈ walkAll [n], m.IsWritable :=
        forall_mem_walkAll_cons.2 ⟨hg _ hc, by simp [walkAll]⟩
      exact fun m hm => (reworded_normalize n).isWritable hn m (mem_walkAll.2 ⟨k, hk, hm⟩)

theorem Grammar.IsWritable.tokenized {g : Grammar} (hg : g.IsWritable) :
    g.tokenized.IsWritable := by
  intro child hchild
  obtain ⟨c, hc, rfl⟩ := List.mem_map.1 hchild
  have hwritable := hg c hc
  cases c with
  | rule r => exact ⟨hwritable.1, (reworded_tokenizeNodes r.body).isWritable hwritable.2⟩
  | node n =>
      cases n with
      | literal _ | token _ | ruleRef _ | tag _ => exact hwritable
      | element container children =>
          obtain ⟨hcontainer, hchildren⟩ := forall_mem_walk_element.1 hwritable
          exact forall_mem_walk_element.2
            ⟨hcontainer, (reworded_tokenizeNodes children).isWritable hchildren⟩

/-! ## Raw text -/

mutual

theorem ne_literal_tokenize : ∀ n : Node, Tokenized n.tokenize
  | .literal text => by
      rw [Node.tokenize, Tokenized, walkAll_of_isText]
      · rintro n hn s rfl
        obtain ⟨_, -, htoken⟩ := List.mem_map.1 hn
        cases htoken
      · exact (Node.IsText.tokenize (n := .literal text) trivial).1
  | .token _ => by simp [Node.tokenize, Tokenized, walkAll, Node.walk]
  | .ruleRef _ => by simp [Node.tokenize, Tokenized, walkAll, Node.walk]
  | .tag _ => by simp [Node.tokenize, Tokenized, walkAll, Node.walk]
  | .element _ children => by
      rw [Node.tokenize, Tokenized, forall_mem_walkAll_cons, forall_mem_walk_element]
      exact ⟨⟨by simp, tokenized_tokenizeNodes children⟩, by simp [walkAll]⟩

/-- Tokenizing leaves no raw text. -/
theorem tokenized_tokenizeNodes : ∀ ns : List Node, Tokenized (tokenizeNodes ns)
  | [] => by simp [tokenizeNodes, Tokenized, walkAll]
  | n :: ns => forall_mem_walkAll_append.2 ⟨ne_literal_tokenize n, tokenized_tokenizeNodes ns⟩

end

mutual

theorem ne_literal_normalize : ∀ n : Node, (∀ m ∈ n.walk, ∀ s, m ≠ .literal s) →
    Tokenized n.normalize
  | .literal text, h => absurd rfl (h (.literal text) (by simp [Node.walk]) text)
  | .token _, _ => by simp [Node.normalize, Tokenized, walkAll, Node.walk]
  | .ruleRef _, _ => by simp [Node.normalize, Tokenized, walkAll, Node.walk]
  | .tag _, _ => by simp [Node.normalize, Tokenized, walkAll, Node.walk]
  | .element _ children, h => by
      obtain ⟨-, hchildren⟩ := forall_mem_walk_element.1 h
      rw [Node.normalize, Tokenized, forall_mem_walkAll_cons, forall_mem_walk_element]
      exact ⟨⟨by simp, tokenized_normalizeNodes children hchildren⟩, by simp [walkAll]⟩

/-- Normalizing brings no raw text. -/
theorem tokenized_normalizeNodes : ∀ ns : List Node, Tokenized ns → Tokenized (normalizeNodes ns)
  | [], _ => by simp [normalizeNodes, Tokenized, walkAll]
  | n :: ns, h => by
      obtain ⟨hn, hns⟩ := forall_mem_walkAll_cons.1 h
      exact forall_mem_walkAll_append.2
        ⟨ne_literal_normalize n hn, tokenized_normalizeNodes ns hns⟩

end

/-- No rule of the grammar has raw text in its body. -/
def Grammar.RulesTokenized (g : Grammar) : Prop := ∀ rule ∈ g.rules, Tokenized rule.body

theorem Grammar.rulesTokenized_tokenized (g : Grammar) : g.tokenized.RulesTokenized := by
  intro rule hrule
  rw [Grammar.rules, Grammar.tokenized, rulesOf_tokenizeChildren] at hrule
  obtain ⟨r, -, rfl⟩ := List.mem_map.1 hrule
  exact tokenized_tokenizeNodes r.body

theorem Grammar.RulesTokenized.normalized {g : Grammar} (hg : g.RulesTokenized) :
    g.normalized.RulesTokenized := by
  intro rule hrule
  rw [Grammar.rules, Grammar.normalized, rulesOf_normalizeChildren] at hrule
  obtain ⟨r, hr, rfl⟩ := List.mem_map.1 hrule
  exact tokenized_normalizeNodes r.body (hg r hr)

theorem Grammar.RulesTokenized.inlined {g h : Grammar} (hg : g.RulesTokenized)
    (hinline : g.inlined = .ok h) : h.RulesTokenized := by
  obtain ⟨children, hchildren, rfl⟩ := map_eq_ok.1 hinline
  intro rule hrule
  have hmem := mem_children_of_mem_rules hrule
  obtain hmem | ⟨r, body, hr, hexpands, heq⟩ :=
    (inlined_of_inlineChildren hchildren).mem_or_expanded hmem
  · exact hg rule (List.mem_filterMap.2 ⟨_, hmem, rfl⟩)
  · cases heq
    have hbody := hg r (List.mem_filterMap.2 ⟨_, hr, rfl⟩)
    exact hexpands.forall_mem_walkAll (fun _ _ _ _ _ => by simp) hg hbody

/-! ## Runs of passes -/

/-- The edit is one of the three passes over a grammar. -/
def Edit.IsPass (edit : Edit) : Prop := edit = .inline ∨ edit = .normalize ∨ edit = .tokenize

/-- The grammar after edits that all have to succeed. -/
def Edit.chain (edits : List Edit) (g : Grammar) : Except Error Grammar :=
  edits.foldlM (fun g edit => edit.apply g) g

theorem Edit.chain_cons_eq_ok {edit : Edit} {edits : List Edit} {g h : Grammar} :
    Edit.chain (edit :: edits) g = .ok h ↔
      ∃ next, edit.apply g = .ok next ∧ Edit.chain edits next = .ok h := bind_eq_ok

/-- What each of the passes keeps is kept by all of them together. -/
theorem Edit.chain_induction {P : Grammar → Prop}
    (hinline : ∀ {g h : Grammar}, P g → g.inlined = .ok h → P h)
    (hnormalize : ∀ {g : Grammar}, P g → P g.normalized)
    (htokenize : ∀ {g : Grammar}, P g → P g.tokenized) {passes : List Edit}
    (hpasses : ∀ pass ∈ passes, pass.IsPass) {g h : Grammar} (hg : P g)
    (hchain : Edit.chain passes g = .ok h) : P h := by
  induction passes generalizing g with
  | nil =>
      cases hchain
      exact hg
  | cons pass passes ih =>
      rw [List.forall_mem_cons] at hpasses
      obtain ⟨next, hnext, hrest⟩ := Edit.chain_cons_eq_ok.1 hchain
      refine ih hpasses.2 ?_ hrest
      obtain rfl | rfl | rfl := hpasses.1
      · exact hinline hg hnext
      · cases hnext
        exact hnormalize hg
      · cases hnext
        exact htokenize hg

/-- Once a grammar has been tokenized its rules stay so. -/
theorem rulesTokenized_of_chain {passes : List Edit} (hpasses : ∀ pass ∈ passes, pass.IsPass)
    {g h : Grammar} (hchain : Edit.chain passes g = .ok h) (htokenize : .tokenize ∈ passes) :
    h.RulesTokenized := by
  induction passes generalizing g with
  | nil => cases htokenize
  | cons pass passes ih =>
      rw [List.forall_mem_cons] at hpasses
      obtain ⟨next, hnext, hrest⟩ := Edit.chain_cons_eq_ok.1 hchain
      rcases List.mem_cons.1 htokenize with rfl | hmem
      · cases hnext
        exact Edit.chain_induction (fun hg => hg.inlined) (fun hg => hg.normalized)
          (fun {g} _ => g.rulesTokenized_tokenized) hpasses.2 g.rulesTokenized_tokenized hrest
      · exact ih hpasses.2 hrest hmem

/-- A grammar that is read from a document with plain names can be written and read again after
any passes. Its pattern is the same then if no words run together: if its raw texts are kept apart,
or one of the passes has tokenized it. -/
theorem parse_render_chain {text : String} {e : Markup.Element} {g h : Grammar}
    {passes : List Edit} (htext : Markup.read text = .ok e) (hnames : e.toNode.HasPlainNames)
    (hparse : Grammar.parse text = .ok g) (hpasses : ∀ pass ∈ passes, pass.IsPass)
    (hchain : Edit.chain passes g = .ok h) :
    ∃ again, Grammar.parse h.render = .ok again ∧
      ((∀ rule ∈ h.rootRule?, KeptApart (.ofMode h.mode) rule.body) ∨ .tokenize ∈ passes →
        again.toPattern = h.toPattern) := by
  have hmarkup : Grammar.ofMarkup e = .ok g := by rwa [Grammar.parse, htext] at hparse
  have hwritable : h.IsWritable :=
    Edit.chain_induction (fun hg => hg.inlined) (fun hg => hg.normalized) (fun hg => hg.tokenized)
      hpasses (Grammar.isWritable_ofMarkup hnames hmarkup) hchain
  have hadmitted : h.IsAdmitted :=
    Edit.chain_induction (fun hg => hg.inlined) (fun hg => hg.normalized) (fun hg => hg.tokenized)
      hpasses (isAdmitted_ofMarkup hmarkup) hchain
  refine ⟨h.reread, parse_render hadmitted hwritable, fun hor => compileRule_reread ?_ {}⟩
  obtain hapart | htokenize := hor
  · exact hapart
  · intro rule hrule
    have htokenized := rulesTokenized_of_chain hpasses hchain htokenize
    exact keptApart_of_tokenized (htokenized rule (mem_rules_of_rootRule? hrule))

/-- A grammar whose root rule holds a text in front of a reference to another text. -/
def pairGrammar (mode : Mode) (first second : String) : Grammar :=
  { mode := some mode
    root := some "a"
    children := [.rule { id := "a", body := [.literal first, .ruleRef "#b"] },
      .rule { id := "b", body := [.literal second] }] }

/-- The same grammar once it has been inlined. -/
def inlinedPair (mode : Mode) (first second : String) : Grammar :=
  { pairGrammar mode first second with
    children := [.rule { id := "a", body := [.literal first, .literal second] }] }

theorem inlined_pairGrammar (mode : Mode) (first second : String) :
    (pairGrammar mode first second).inlined = .ok (inlinedPair mode first second) := by
  cbv

/-- Keys have nothing between them, so they may run together. -/
theorem parse_render_chain_keys :
    ∃ text e again, Markup.read text = .ok e ∧ e.toNode.HasPlainNames ∧
      Grammar.parse text = .ok (pairGrammar .dtmf "1" "2") ∧
      Edit.chain [.inline] (pairGrammar .dtmf "1" "2") = .ok (inlinedPair .dtmf "1" "2") ∧
      Grammar.parse (inlinedPair .dtmf "1" "2").render = .ok again ∧
      again.toPattern = (inlinedPair .dtmf "1" "2").toPattern := by
  have hadmitted : (pairGrammar .dtmf "1" "2").IsAdmitted := by
    rw [Grammar.IsAdmitted]
    decide
  have hwritable : (pairGrammar .dtmf "1" "2").IsWritable := by decide
  have hsame : (pairGrammar .dtmf "1" "2").reread = pairGrammar .dtmf "1" "2" := by decide +kernel
  have hparse := parse_render hadmitted hwritable
  rw [hsame] at hparse
  obtain ⟨e, htext, hnames⟩ := exists_read_render hwritable
  have hchain : Edit.chain [.inline] (pairGrammar .dtmf "1" "2") =
      .ok (inlinedPair .dtmf "1" "2") :=
    Edit.chain_cons_eq_ok.2 ⟨_, inlined_pairGrammar .dtmf "1" "2", rfl⟩
  obtain ⟨again, hagain, hpattern⟩ :=
    parse_render_chain htext hnames hparse (by simp [Edit.IsPass]) hchain
  exact ⟨_, e, again, htext, hnames, hparse, hchain, hagain, hpattern (.inl (by decide +kernel))⟩

/-- The pattern of the words of a text, with a space before each of two words or of one. -/
theorem toPattern_inlinedPair : (inlinedPair .voice "hello" "world").toPattern =
    .ok (.regex "^ hello world$".toList
      (.concat [.atStart, .char ' ', .char 'h', .char 'e', .char 'l', .char 'l', .char 'o',
        .char ' ', .char 'w', .char 'o', .char 'r', .char 'l', .char 'd', .atEnd]) false) := by
  have hfragment : Rule.fragment (.ofMode (some .voice))
      { id := "a", body := [.literal "hello", .literal "world"] } =
        .ok " hello world".toList := by
    decide +kernel
  refine compileRule_eq_ok hfragment (by decide) rfl (by decide +kernel) ?_
  have hsimple : (Regex.concat [.atStart, .char ' ', .char 'h', .char 'e', .char 'l', .char 'l',
      .char 'o', .char ' ', .char 'w', .char 'o', .char 'r', .char 'l', .char 'd',
      .atEnd]).simplify (fun c => [c]) =
        .concat [.atStart, .literal " hello world".toList, .atEnd] := by
    simp only [simplify, simplifyAll, List.map_cons, List.map_nil, classOf_single]
    rfl
  rw [hsimple]
  decide +kernel

/-- Inlining puts `hello` and `world` side by side. They are written as one run of text, so the
grammar that is read matches the single word `helloworld` instead. -/
theorem parse_render_chain_ne :
    (Grammar.parse (pairGrammar .voice "hello" "world").render =
        .ok (pairGrammar .voice "hello" "world") ∧
      Edit.chain [.inline] (pairGrammar .voice "hello" "world") =
        .ok (inlinedPair .voice "hello" "world") ∧
      Grammar.parse (inlinedPair .voice "hello" "world").render =
        .ok { pairGrammar .voice "hello" "world" with
          children := [.rule { id := "a", body := [.literal "helloworld"] }] }) ∧
    ¬ ∀ text e g h passes pattern, Markup.read text = .ok e → e.toNode.HasPlainNames →
      Grammar.parse text = .ok g → (∀ pass ∈ passes, pass.IsPass) →
        Edit.chain passes g = .ok h → h.toPattern = .ok pattern →
          ∃ again, Grammar.parse h.render = .ok again ∧ again.toPattern = .ok pattern := by
  have hadmitted : (pairGrammar .voice "hello" "world").IsAdmitted ∧
      (inlinedPair .voice "hello" "world").IsAdmitted := by
    simp only [Grammar.IsAdmitted]
    decide
  have hwritable : (pairGrammar .voice "hello" "world").IsWritable ∧
      (inlinedPair .voice "hello" "world").IsWritable := by decide
  have hsame : (pairGrammar .voice "hello" "world").reread =
      pairGrammar .voice "hello" "world" := by decide +kernel
  have hjoined : (inlinedPair .voice "hello" "world").reread =
      { pairGrammar .voice "hello" "world" with
        children := [.rule { id := "a", body := [.literal "helloworld"] }] } := by decide +kernel
  have hparse := parse_render hadmitted.1 hwritable.1
  rw [hsame] at hparse
  have hagain := parse_render hadmitted.2 hwritable.2
  have hchain : Edit.chain [.inline] (pairGrammar .voice "hello" "world") =
      .ok (inlinedPair .voice "hello" "world") :=
    Edit.chain_cons_eq_ok.2 ⟨_, inlined_pairGrammar .voice "hello" "world", rfl⟩
  refine ⟨⟨hparse, hchain, hjoined ▸ hagain⟩, fun h => ?_⟩
  obtain ⟨e, htext, hnames⟩ := exists_read_render hwritable.1
  obtain ⟨again, hread, hpattern⟩ := h _ e _ _ _ _ htext hnames hparse (by simp [Edit.IsPass])
    hchain toPattern_inlinedPair
  rw [hagain, hjoined] at hread
  cases hread
  have hfragment : Rule.fragment (.ofMode (some .voice))
      { id := "a", body := [.literal "helloworld"] } = .ok " helloworld".toList := by
    decide +kernel
  exact absurd (source_of_compileRule hfragment (by decide) hpattern) (by decide)

end SpeechGrammar
