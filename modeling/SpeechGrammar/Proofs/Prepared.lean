import SpeechGrammar.Pipeline
import SpeechGrammar.Proofs.Grammar.Inline
import SpeechGrammar.Proofs.Grammar.TextPass
import SpeechGrammar.Proofs.Pattern.Compiled

set_option autoImplicit false

/-!
# What a prepared grammar matches

A grammar that has been prepared and compiled accepts what the grammar meant before: the
utterances whose words are in the language of the root rule, with each reference read as the body
of its rule. Preparing keeps the language of the root rule (`Expands.meaning_of_reworded`), and
compiling turns this language into a pattern.
-/

namespace SpeechGrammar

open Text Regex

/-! ## Preparing -/

/-- A grammar is prepared when it can be inlined; the other two stages cannot fail. -/
theorem prepared_eq_ok_iff {g p : Grammar} :
    (∃ report, g.prepared = .ok (p, report)) ↔
      ∃ inlined, inlineChildren g.root g.children = .ok inlined ∧
        p = { g with children := tokenizeChildren (normalizeChildren inlined) } := by
  cases hinline : inlineChildren g.root g.children with
  | error e =>
      have hprepared : g.prepared = .error e := by
        simp [Grammar.prepared, runPipeline, standardStages, runStages, Stage.recorded,
          Grammar.fingerprint, inlineStage, Grammar.inlined, hinline, Except.bind, Except.map]
      simp [hprepared]
  | ok inlined =>
      obtain ⟨report, hprepared⟩ : ∃ report, g.prepared =
          .ok ({ g with children := tokenizeChildren (normalizeChildren inlined) }, report) := by
        have hinlined : g.inlined = .ok { g with children := inlined } :=
          map_eq_ok.2 ⟨inlined, hinline, rfl⟩
        simp only [Grammar.prepared, runPipeline, standardStages, runStages, Stage.recorded,
          inlineStage, hinlined]
        exact ⟨_, rfl⟩
      simp [hprepared, eq_comm]

/-- Preparing a grammar is inlining, normalizing and tokenizing it. -/
theorem exists_inlined_eq_of_prepared {g p : Grammar} {report : Report}
    (h : g.prepared = .ok (p, report)) :
    ∃ inlined, g.inlined = .ok inlined ∧ p = inlined.normalized.tokenized := by
  obtain ⟨children, hchildren, rfl⟩ := prepared_eq_ok_iff.1 ⟨report, h⟩
  exact ⟨_, map_eq_ok.2 ⟨children, hchildren, rfl⟩, rfl⟩

theorem rulesOf_map_node (ns : List Node) : rulesOf (ns.map Child.node) = [] := by
  simp [rulesOf, List.filterMap_map, Child.rule?, Function.comp_def]

theorem rulesOf_normalizeChildren (children : List Child) :
    rulesOf (normalizeChildren children) =
      (rulesOf children).map fun rule => { rule with body := normalizeNodes rule.body } := by
  induction children with
  | nil => rfl
  | cons child children ih =>
      rw [normalizeChildren, List.flatMap_cons, rulesOf_append]
      cases child with
      | node n =>
          rw [Child.normalize, rulesOf_map_node, List.nil_append]
          exact ih
      | rule r =>
          show { r with body := normalizeNodes r.body } :: rulesOf (normalizeChildren children) = _
          rw [ih]
          rfl

theorem rulesOf_tokenizeChildren (children : List Child) :
    rulesOf (tokenizeChildren children) =
      (rulesOf children).map fun rule => { rule with body := tokenizeNodes rule.body } := by
  induction children with
  | nil => rfl
  | cons child children ih =>
      cases child with
      | node n => cases n <;> exact ih
      | rule r =>
          show { r with body := tokenizeNodes r.body } :: rulesOf (tokenizeChildren children) = _
          rw [ih]
          rfl

theorem rulesOf_textPasses (children : List Child) :
    rulesOf (tokenizeChildren (normalizeChildren children)) =
      (rulesOf children).map fun rule =>
        { rule with body := tokenizeNodes (normalizeNodes rule.body) } := by
  rw [rulesOf_tokenizeChildren, rulesOf_normalizeChildren, List.map_map]
  rfl

/-- What a prepared grammar holds is what inlining leaves, after the passes over its text. -/
theorem exists_inlined_of_prepared {g p : Grammar} {report : Report}
    (h : g.prepared = .ok (p, report)) :
    ∃ inlined, Inlined g.root g.children inlined ∧
      p = { g with children := tokenizeChildren (normalizeChildren inlined) } := by
  obtain ⟨inlined, hinline, hp⟩ := prepared_eq_ok_iff.1 ⟨report, h⟩
  exact ⟨inlined, inlined_of_inlineChildren hinline, hp⟩

theorem rootRule?_of_rules_eq {g : Grammar} {rule : Rule} (hroot : g.root = some rule.id)
    (hrules : g.rules = [rule]) : g.rootRule? = some rule := by
  simp [Grammar.rootRule?, Grammar.rule?, hroot, hrules, findRule?]

/-- The root rule of a prepared grammar is the expanded one, with other text that has the same
words. -/
theorem exists_rootRule?_of_prepared {g p : Grammar} {report : Report} {root : Rule}
    (hprepared : g.prepared = .ok (p, report)) (hroot : g.rootRule? = some root) :
    ∃ resolved normalized body, Expands g.rules root.body resolved ∧
      Reworded resolved normalized ∧ Reworded normalized body ∧ p.mode = g.mode ∧
      p.rootRule? = some { root with body := body } := by
  obtain ⟨inlined, hinlined, rfl⟩ := exists_inlined_of_prepared hprepared
  obtain ⟨resolved, hresolved, hrules⟩ := hinlined.rulesOf_eq hroot
  refine ⟨resolved, _, _, hresolved, reworded_normalizeNodes _, reworded_tokenizeNodes _, rfl, ?_⟩
  obtain ⟨id, hid, hrule⟩ := Option.bind_eq_some_iff.1 hroot
  rw [← id_of_findRule? hrule] at hid
  refine rootRule?_of_rules_eq hid ?_
  rw [Grammar.rules, rulesOf_textPasses, hrules, List.map_singleton]

theorem mem_rules_of_rootRule? {g : Grammar} {root : Rule} (h : g.rootRule? = some root) :
    root ∈ g.rules := by
  obtain ⟨id, -, hrule⟩ := Option.bind_eq_some_iff.1 h
  exact mem_of_findRule? hrule

/-- Neither expanding nor rewording changes what a body means. -/
theorem Expands.meaning_of_reworded {rules : List Rule}
    {nodes resolved normalized body : List Node}
    (hordered : ∀ rule ∈ rules, RepeatsOrdered rule.body)
    (hclosed : ∀ rule ∈ rules, ChoicesClosed rule.body) (hnodes : RepeatsOrdered nodes)
    (hnodes' : ChoicesClosed nodes) (h : Expands rules nodes resolved)
    (hnormalized : Reworded resolved normalized) (hbody : Reworded normalized body) :
    references body = [] ∧ RepeatsOrdered body ∧ (HasContent body ↔ HasContent resolved) ∧
      sequenceLanguage (ruleLanguage rules) body =
        sequenceLanguage (ruleLanguage rules) nodes := by
  have hresolved := h.choicesClosed hclosed hnodes'
  refine ⟨?_, ?_, ?_, ?_⟩
  · rw [hbody.references_eq, hnormalized.references_eq, h.references_eq_nil]
  · exact hbody.repeatsOrdered (hnormalized.repeatsOrdered (h.repeatsOrdered hordered hnodes))
  · rw [hbody.hasContent_iff, hnormalized.hasContent_iff]
  · calc sequenceLanguage (ruleLanguage rules) body
        = sequenceLanguage (ruleLanguage rules) normalized :=
          (hbody.meansSame _ (hnormalized.choicesClosed hresolved)).sequence
      _ = sequenceLanguage (ruleLanguage rules) resolved :=
          (hnormalized.meansSame _ hresolved).sequence
      _ = sequenceLanguage (ruleLanguage rules) nodes := (h.meansSame hclosed hnodes').sequence

/-! ## Matching -/

theorem isSome_match?_iff (compiled : CompiledGrammar) (utterance : String) :
    (compiled.match? utterance).isSome = true ↔
      compiled.pattern.isMatch (canonicalChars (.ofMode compiled.mode) utterance.toList) = true := by
  rw [CompiledGrammar.match?]
  split <;> simp [*]

/-- A grammar that has been prepared and compiled matches exactly the utterances that the
language of its root rule accepts, and none if the root rule offers neither a word nor a
choice. -/
theorem match?_prepared_iff {g : Grammar}
    (hordered : ∀ rule ∈ g.rules, RepeatsOrdered rule.body)
    (hclosed : ∀ rule ∈ g.rules, ChoicesClosed rule.body) {p : Grammar} {report : Report}
    (hprepared : g.prepared = .ok (p, report)) {root : Rule} (hroot : g.rootRule? = some root)
    {compiled : CompiledGrammar} (hcompiled : p.compile {} = .ok compiled) (utterance : String) :
    p.match? utterance = .ok (compiled.match? utterance) ∧
      ((compiled.match? utterance).isSome = true ↔
        (∃ resolved, Expands g.rules root.body resolved ∧ HasContent resolved) ∧
          (Separator.ofMode g.mode).Accepts
            (sequenceLanguage (ruleLanguage g.rules) root.body) (words utterance.toList)) := by
  obtain ⟨resolved, normalized, body, hexpands, hnormalized, hbody, hmode, hrule⟩ :=
    exists_rootRule?_of_prepared hprepared hroot
  have hmem := mem_rules_of_rootRule? hroot
  obtain ⟨hnone, hbodyOrdered, hcontent, hlanguage⟩ := hexpands.meaning_of_reworded hordered
    hclosed (hordered root hmem) (hclosed root hmem) hnormalized hbody
  obtain ⟨pattern, hpattern, rfl⟩ := map_eq_ok.1 hcompiled
  rw [hrule] at hpattern
  have hmatch := isMatch_of_compileRule_iff (by simp [Rule.hasReferences, hnone]) hbodyOrdered
    rfl hpattern (ruleLanguage g.rules) utterance.toList
  refine ⟨map_eq_ok.2 ⟨_, hcompiled, rfl⟩, ?_⟩
  rw [isSome_match?_iff, hmatch, hcontent, hlanguage, hmode]
  refine and_congr_left fun _ => ⟨fun h => ⟨resolved, hexpands, h⟩, ?_⟩
  -- There is only one expansion, so it does not matter which one has the content.
  rintro ⟨resolved', hexpands', h⟩
  have hsame : resolved = resolved' := hexpands.unique hexpands'
  rw [hsame]
  exact h

/-- Somebody up to twice, and then either once more or an `x` any number of times. -/
def callBody (who : Node) : List Node :=
  [.element (.item (some ⟨0, some 2⟩)) [who],
    .element .oneOf [.element (.item none) [who], .element (.item (some ⟨1, none⟩)) [.token "x"]]]

/-- A grammar whose root rule refers twice to a rule with a phrase. -/
def callGrammar : Grammar :=
  { root := some "call"
    children := [.rule { id := "who", body := [.literal "\"a.  b\""] },
      .rule { id := "call", body := callBody (.ruleRef "#who") }] }

theorem inlineChildren_callGrammar : inlineChildren callGrammar.root callGrammar.children =
    .ok [.rule { id := "call", body := callBody (.literal "\"a.  b\"") }] := by
  cbv

theorem tokenizeChildren_callGrammar :
    tokenizeChildren (normalizeChildren
      [.rule { id := "call", body := callBody (.literal "\"a.  b\"") }]) =
        [.rule { id := "call", body := callBody (.token "a. b") }] := by
  decide +kernel

/-- The expression for the root rule. -/
def callExpression : Regex :=
  .concat [.atStart,
    .repeated (.group (.concat [.char ' ', .char 'a', .char '.', .char ' ', .char 'b'])) 0 (some 2),
    .group (.choice [.concat [.char ' ', .char 'a', .char '.', .char ' ', .char 'b'],
      .repeated (.group (.concat [.char ' ', .char 'x'])) 1 none]), .atEnd]

theorem compileRule_callGrammar :
    compileRule (some { id := "call", body := callBody (.token "a. b") }) none {} =
      .ok (.regex "^(?: a\\. b)\x7b0,2\x7d(?: a\\. b|(?: x)+)$".toList callExpression false) := by
  have hfragment : Rule.fragment (.ofMode none)
      { id := "call", body := callBody (.token "a. b") } =
        .ok "(?: a\\. b)\x7b0,2\x7d(?: a\\. b|(?: x)+)".toList := by
    decide +kernel
  have hsimple : callExpression.simplify (fun c => [c]) =
      .concat [.atStart, .repeated (.literal " a. b".toList) 0 (some 2),
        .choice [.literal " a. b".toList, .repeated (.literal " x".toList) 1 none], .atEnd] := by
    simp only [callExpression, simplify, simplifyAll, List.map_cons, List.map_nil,
      classOf_single]
    rfl
  have hsize : (callExpression.simplify (fun c => [c])).automatonSize ≤ maxAutomatonSize := by
    rw [hsimple]
    decide +kernel
  have hdepth : callExpression.depth ≤ maxDepth := by decide +kernel
  exact compileRule_eq_ok hfragment (by decide) rfl hdepth hsize

theorem match?_prepared_iff_callGrammar :
    (∀ rule ∈ callGrammar.rules, RepeatsOrdered rule.body ∧ ChoicesClosed rule.body) ∧
      ∃ p report root compiled, callGrammar.prepared = .ok (p, report) ∧
        callGrammar.rootRule? = some root ∧ p.compile {} = .ok compiled ∧
          ∀ utterance : String, p.match? utterance = .ok (compiled.match? utterance) ∧
            ((compiled.match? utterance).isSome = true ↔
              (∃ resolved, Expands callGrammar.rules root.body resolved ∧ HasContent resolved) ∧
                Separator.space.Accepts
                  (sequenceLanguage (ruleLanguage callGrammar.rules) root.body)
                  (words utterance.toList)) := by
  have hrules : ∀ rule ∈ callGrammar.rules, RepeatsOrdered rule.body ∧ ChoicesClosed rule.body := by
    simp [Grammar.rules, callGrammar, rulesOf, Child.rule?, callBody, RepeatsOrdered,
      ChoicesClosed, walkAll, Node.walk, Node.IsOrdered, Node.IsClosedChoice, Node.IsOpen,
      Repeat.isOrdered]
  obtain ⟨report, hprepared⟩ := prepared_eq_ok_iff.2 ⟨_, inlineChildren_callGrammar, rfl⟩
  have hroot : callGrammar.rootRule? = some { id := "call", body := callBody (.ruleRef "#who") } :=
    rfl
  rw [tokenizeChildren_callGrammar] at hprepared
  have hcompiled : Grammar.compile
      { callGrammar with
        children := [.rule { id := "call", body := callBody (.token "a. b") }] } {} = .ok _ :=
    map_eq_ok.2 ⟨_, compileRule_callGrammar, rfl⟩
  exact ⟨hrules, _, report, _, _, hprepared, hroot, hcompiled,
    match?_prepared_iff (fun rule h => (hrules rule h).1) (fun rule h => (hrules rule h).2)
      hprepared hroot hcompiled⟩

end SpeechGrammar
