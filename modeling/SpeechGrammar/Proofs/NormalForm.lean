import SpeechGrammar.Proofs.Pattern.Rejection
import SpeechGrammar.Proofs.Pipeline
import SpeechGrammar.Proofs.Prepared

set_option autoImplicit false

/-!
# The normal form of a grammar

A prepared grammar is in normal form (`Grammar.IsPrepared`): one rule without references is left at
most, the text of content is all tokens, and every text has single spaces. Each stage does nothing
to a grammar in this form, so preparing it again gives it back and reports that nothing happened.

`Child.IsSpaced` is what normalizing establishes, and `Child.IsNormal` what tokenizing makes of it:
tokens of a text with single spaces have single spaces themselves.
-/

namespace SpeechGrammar

open Text

/-! ## Text in normal form -/

theorem Text.normalize_ofList_normalizeChars (cs : List Char) :
    normalize (String.ofList (normalizeChars cs)) = String.ofList (normalizeChars cs) := by
  rw [normalize, String.toList_ofList, normalizeChars_congr (words_normalizeChars cs)]

@[simp] theorem Text.normalize_normalize (s : String) : normalize (normalize s) = normalize s :=
  normalize_ofList_normalizeChars s.toList

/-- The tokens of a normalized text are the tokens of the text, each normalized. -/
theorem Text.splitTokens_normalize (s : String) :
    splitTokens (normalize s) = (splitTokens s).map normalize := by
  rw [splitTokens, normalize, String.toList_ofList, tokenChars_normalizeChars, splitTokens,
    List.map_map, List.map_map]
  exact List.map_congr_left fun cs _ => by simp [normalize]

theorem Text.normalize_of_mem_splitTokens {text token : String} (htext : normalize text = text)
    (htoken : token ∈ splitTokens text) : normalize token = token := by
  rw [← htext, splitTokens_normalize] at htoken
  obtain ⟨before, -, rfl⟩ := List.mem_map.1 htoken
  exact normalize_normalize before

/-- The text of the node, if it has one, is normalized, and raw text is not blank. -/
def Node.IsSpaced : Node → Prop
  | .literal text => Text.normalize text = text ∧ text ≠ ""
  | .token text => Text.normalize text = text
  | _ => True

/-- The node is not raw text, and its text, if it has one, is normalized. -/
def Node.IsNormal : Node → Prop
  | .literal _ => False
  | .token text => Text.normalize text = text
  | _ => True

theorem Node.IsNormal.isSpaced {n : Node} (h : n.IsNormal) : n.IsSpaced := by
  cases n with
  | literal _ => cases h
  | token _ => exact h
  | ruleRef _ | tag _ | element _ _ => trivial

mutual

theorem isSpaced_normalize : ∀ n : Node, ∀ m ∈ walkAll n.normalize, m.IsSpaced
  | .literal text => by
      rw [Node.normalize]
      split
      · simp [walkAll]
      · simpa [walkAll, Node.walk, Node.IsSpaced]
  | .token text => by
      simp [Node.normalize, walkAll, Node.walk, Node.IsSpaced]
  | .ruleRef _ => by simp [Node.normalize, walkAll, Node.walk, Node.IsSpaced]
  | .tag _ => by simp [Node.normalize, walkAll, Node.walk, Node.IsSpaced]
  | .element _ children => by
      rw [Node.normalize, forall_mem_walkAll_cons, forall_mem_walk_element]
      exact ⟨⟨trivial, isSpaced_normalizeNodes children⟩, by simp [walkAll]⟩

/-- Normalizing leaves single spaces everywhere. -/
theorem isSpaced_normalizeNodes : ∀ ns : List Node, ∀ m ∈ walkAll (normalizeNodes ns), m.IsSpaced
  | [] => by simp [normalizeNodes, walkAll]
  | n :: ns => by
      rw [normalizeNodes, forall_mem_walkAll_append]
      exact ⟨isSpaced_normalize n, isSpaced_normalizeNodes ns⟩

end

mutual

theorem isNormal_tokenize : ∀ n : Node, (∀ m ∈ n.walk, m.IsSpaced) →
    ∀ m ∈ walkAll n.tokenize, m.IsNormal
  | .literal text, h => by
      obtain ⟨htext, -⟩ := h (.literal text) (by simp [Node.walk])
      obtain ⟨hks, -⟩ := Node.IsText.tokenize (n := .literal text) trivial
      rw [walkAll_of_isText hks, Node.tokenize, List.forall_mem_map]
      exact fun token htoken => Text.normalize_of_mem_splitTokens htext htoken
  | .token text, h => by
      have htext : Text.normalize text = text := h (.token text) (by simp [Node.walk])
      simpa [Node.tokenize, walkAll, Node.walk, Node.IsNormal] using htext
  | .ruleRef _, _ => by simp [Node.tokenize, walkAll, Node.walk, Node.IsNormal]
  | .tag _, _ => by simp [Node.tokenize, walkAll, Node.walk, Node.IsNormal]
  | .element _ children, h => by
      obtain ⟨-, hchildren⟩ := forall_mem_walk_element.1 h
      rw [Node.tokenize, forall_mem_walkAll_cons, forall_mem_walk_element]
      exact ⟨⟨trivial, isNormal_tokenizeNodes children hchildren⟩, by simp [walkAll]⟩

/-- Tokenizing leaves tokens, with single spaces if the text had them. -/
theorem isNormal_tokenizeNodes : ∀ ns : List Node, (∀ m ∈ walkAll ns, m.IsSpaced) →
    ∀ m ∈ walkAll (tokenizeNodes ns), m.IsNormal
  | [], _ => by simp [tokenizeNodes, walkAll]
  | n :: ns, h => by
      obtain ⟨hn, hns⟩ := forall_mem_walkAll_cons.1 h
      rw [tokenizeNodes, forall_mem_walkAll_append]
      exact ⟨isNormal_tokenize n hn, isNormal_tokenizeNodes ns hns⟩

end

/-! ## The passes do nothing to text in normal form -/

mutual

theorem normalize_eq_self : ∀ n : Node, (∀ m ∈ n.walk, m.IsSpaced) → n.normalize = [n]
  | .literal text, h => by
      obtain ⟨htext, hne⟩ := h (.literal text) (by simp [Node.walk])
      rw [Node.normalize, htext, if_neg hne]
  | .token text, h => by
      have htext : Text.normalize text = text := h (.token text) (by simp [Node.walk])
      rw [Node.normalize, htext]
  | .ruleRef _, _ => rfl
  | .tag _, _ => rfl
  | .element _ children, h => by
      obtain ⟨-, hchildren⟩ := forall_mem_walk_element.1 h
      rw [Node.normalize, normalizeNodes_eq_self children hchildren]

theorem normalizeNodes_eq_self : ∀ ns : List Node, (∀ m ∈ walkAll ns, m.IsSpaced) →
    normalizeNodes ns = ns
  | [], _ => rfl
  | n :: ns, h => by
      obtain ⟨hn, hns⟩ := forall_mem_walkAll_cons.1 h
      rw [normalizeNodes, normalize_eq_self n hn, normalizeNodes_eq_self ns hns,
        List.singleton_append]

end

mutual

theorem tokenize_eq_self : ∀ n : Node, (∀ m ∈ n.walk, m.IsNormal) → n.tokenize = [n]
  | .literal text, h => absurd (h (.literal text) (by simp [Node.walk])) id
  | .token _, _ => rfl
  | .ruleRef _, _ => rfl
  | .tag _, _ => rfl
  | .element _ children, h => by
      obtain ⟨-, hchildren⟩ := forall_mem_walk_element.1 h
      rw [Node.tokenize, tokenizeNodes_eq_self children hchildren]

theorem tokenizeNodes_eq_self : ∀ ns : List Node, (∀ m ∈ walkAll ns, m.IsNormal) →
    tokenizeNodes ns = ns
  | [], _ => rfl
  | n :: ns, h => by
      obtain ⟨hn, hns⟩ := forall_mem_walkAll_cons.1 h
      rw [tokenizeNodes, tokenize_eq_self n hn, tokenizeNodes_eq_self ns hns,
        List.singleton_append]

end

/-! ## Children in normal form -/

/-- All text of the child has single spaces. -/
def Child.IsSpaced : Child → Prop
  | .rule r => ∀ n ∈ walkAll r.body, n.IsSpaced
  | .node n => ∀ m ∈ n.walk, m.IsSpaced

/-- The content of the child is in normal form. Raw text directly in a grammar is not content; it
stays raw, with single spaces. -/
def Child.IsNormal : Child → Prop
  | .rule r => ∀ n ∈ walkAll r.body, n.IsNormal
  | .node (.element _ children) => ∀ n ∈ walkAll children, n.IsNormal
  | .node n => n.IsSpaced

theorem Child.isSpaced_of_mem_normalize {c d : Child} (h : d ∈ c.normalize) : d.IsSpaced := by
  cases c with
  | rule r =>
      obtain rfl := List.mem_singleton.1 h
      exact isSpaced_normalizeNodes r.body
  | node n =>
      obtain ⟨k, hk, rfl⟩ := List.mem_map.1 h
      exact fun m hm => isSpaced_normalize n m (mem_walkAll.2 ⟨k, hk, hm⟩)

theorem Child.IsSpaced.isNormal_tokenize {c : Child} (h : c.IsSpaced) : c.tokenize.IsNormal := by
  cases c with
  | rule r => exact isNormal_tokenizeNodes r.body h
  | node n =>
      cases n with
      | element container children =>
          exact isNormal_tokenizeNodes children (forall_mem_walk_element.1 h).2
      | literal text => exact h (.literal text) (by simp [Node.walk])
      | token text => exact h (.token text) (by simp [Node.walk])
      | ruleRef _ | tag _ => trivial

theorem Child.IsNormal.isSpaced {c : Child} (h : c.IsNormal) : c.IsSpaced := by
  cases c with
  | rule r => exact fun n hn => (h n hn).isSpaced
  | node n =>
      cases n with
      | element container children =>
          exact forall_mem_walk_element.2 ⟨trivial, fun m hm => (h m hm).isSpaced⟩
      | literal _ | token _ | ruleRef _ | tag _ => exact List.forall_mem_singleton.2 h

theorem Child.IsSpaced.normalize_eq {c : Child} (h : c.IsSpaced) : c.normalize = [c] := by
  cases c with
  | rule r => rw [Child.normalize, normalizeNodes_eq_self r.body h]
  | node n => rw [Child.normalize, normalize_eq_self n h, List.map_singleton]

theorem Child.IsNormal.tokenize_eq {c : Child} (h : c.IsNormal) : c.tokenize = c := by
  cases c with
  | rule r => rw [Child.tokenize, tokenizeNodes_eq_self r.body h]
  | node n =>
      cases n with
      | element container children => rw [Child.tokenize, tokenizeNodes_eq_self children h]
      | literal _ | token _ | ruleRef _ | tag _ => rfl

/-- Both passes together bring every child into normal form. -/
theorem isNormal_textPasses (children : List Child) :
    ∀ c ∈ tokenizeChildren (normalizeChildren children), c.IsNormal := by
  intro c hc
  obtain ⟨d, hd, rfl⟩ := List.mem_map.1 hc
  obtain ⟨_, -, hmem⟩ := List.mem_flatMap.1 hd
  exact (Child.isSpaced_of_mem_normalize hmem).isNormal_tokenize

theorem normalizeChildren_eq_self {children : List Child} (h : ∀ c ∈ children, c.IsSpaced) :
    normalizeChildren children = children := by
  calc children.flatMap Child.normalize
      = children.flatMap fun c => [c] := List.flatMap_congr fun c hc => (h c hc).normalize_eq
    _ = children := List.flatMap_singleton' children

theorem tokenizeChildren_eq_self {children : List Child} (h : ∀ c ∈ children, c.IsNormal) :
    tokenizeChildren children = children := by
  calc children.map Child.tokenize
      = children.map id := List.map_congr_left fun c hc => (h c hc).tokenize_eq
    _ = children := List.map_id children

/-! ## Prepared grammars -/

/-- The normal form: all content is in normal form, the root rule is the only rule, and no
reference is left. -/
structure Grammar.IsPrepared (g : Grammar) : Prop where
  content : ∀ c ∈ g.children, c.IsNormal
  references_eq_nil : ∀ rule ∈ g.rules, references rule.body = []
  rules_eq : g.rules = g.rootRule?.toList

/-- Without references there is nothing to replace. -/
theorem expands_self {rules : List Rule} : ∀ ns : List Node, references ns = [] →
    Expands rules ns ns
  | [], _ => .nil
  | .literal _ :: ns, h => .leaf trivial (expands_self ns h)
  | .token _ :: ns, h => .leaf trivial (expands_self ns h)
  | .tag _ :: ns, h => .leaf trivial (expands_self ns h)
  | .ruleRef uri :: ns, h => by
      rw [references_ruleRef_cons] at h
      cases h
  | .element _ children :: ns, h => by
      rw [references_element_cons, List.append_eq_nil_iff] at h
      exact .element (expands_self children h.1) (expands_self ns h.2)

theorem filter_nodes_eq_self {children : List Child} (h : rulesOf children = []) :
    children.filter (·.rule?.isNone) = children := by
  rw [rulesOf, List.filterMap_eq_nil_iff] at h
  exact List.filter_eq_self.2 fun c hc => by rw [h c hc]; rfl

/-- A rule that stands alone among the nodes is all that can be found. -/
theorem Inlined.eq_self {root? : Option String} {children inlined : List Child}
    (h : Inlined root? children inlined)
    (hrules : rulesOf children = (root?.bind (findRule? (rulesOf children))).toList)
    (hnone : ∀ rule ∈ rulesOf children, references rule.body = []) : inlined = children := by
  cases h with
  | withoutRoot hroot =>
      refine filter_nodes_eq_self ?_
      rw [hrules, Option.toList_eq_nil_iff, Option.bind_eq_none_iff]
      rintro id rfl
      refine List.find?_eq_none.2 fun rule hrule hid => hroot rule hrule ?_
      rw [beq_iff_eq.1 hid]
  | @withRoot before after rule body hchildren hroot hfirst hbody =>
      have hrule := findRule?_of_first hchildren hfirst
      have hmem : rule ∈ rulesOf children := mem_of_findRule? hrule
      have hlength : (rulesOf before).length + ((rulesOf after).length + 1) = 1 := by
        rw [hroot, Option.bind_some, hrule] at hrules
        have hlength := congrArg List.length hrules
        rwa [hchildren, rulesOf_append, List.length_append] at hlength
      have hbefore : rulesOf before = [] := List.length_eq_zero_iff.1 (by omega)
      have hafter : rulesOf after = [] := List.length_eq_zero_iff.1 (by omega)
      have hbody' : rule.body = body := (hbody _).1 (expands_self rule.body (hnone rule hmem))
      rw [filter_nodes_eq_self hbefore, filter_nodes_eq_self hafter, ← hbody', hchildren]

theorem refers_of_references_eq_nil {rules : List Rule}
    (hnone : ∀ rule ∈ rules, references rule.body = []) (a b : String) : ¬ Refers rules a b := by
  rintro ⟨rule, target, uri, hrule, huri, -⟩
  rw [hnone rule (mem_of_findRule? hrule)] at huri
  cases huri

/-- A grammar with no other rule than its root rule, and no references, can be inlined. -/
theorem Grammar.IsPrepared.inlined_eq {g : Grammar} (h : g.IsPrepared) : g.inlined = .ok g := by
  have hids : (g.rules.map Rule.id).Nodup := by
    rw [h.rules_eq]
    cases g.rootRule? <;> simp
  have hresolves : Resolves g.rules := by
    intro rule hrule uri huri
    rw [h.references_eq_nil rule hrule] at huri
    cases huri
  have hacyclic : Acyclic g.rules := by
    intro id hcircle
    obtain ⟨_, hnext, -⟩ := Relation.TransGen.head'_iff.1 hcircle
    exact refers_of_references_eq_nil h.references_eq_nil _ _ hnext
  obtain ⟨inlined, hinline, hinlined⟩ :=
    exists_inlined (checkRules_eq_ok hids hresolves hacyclic _ _) g.root
  rw [hinlined.eq_self h.rules_eq h.references_eq_nil] at hinline
  exact map_eq_ok.2 ⟨_, hinline, rfl⟩

/-- Preparing a grammar in normal form gives it back, and every stage reports that it did
nothing. -/
theorem Grammar.IsPrepared.prepared_eq {g : Grammar} (h : g.IsPrepared) :
    ∃ report, g.prepared = .ok (g, report) ∧
      report.stages.map StageRecord.id = standardStages.map Stage.id ∧
      ∀ record ∈ report.stages, record.isNoop = true := by
  have hnormalized : g.normalized = g := by
    rw [Grammar.normalized, normalizeChildren_eq_self fun c hc => (h.content c hc).isSpaced]
  have htokenized : g.tokenized = g := by
    rw [Grammar.tokenized, tokenizeChildren_eq_self h.content]
  have hfixed : ∀ stage ∈ standardStages, stage.run g = .ok g := by
    simp [standardStages, inlineStage, normalizeStage, tokenizeStage, h.inlined_eq, hnormalized,
      htokenized]
  have hhash : g.fingerprint = .ok _ := rfl
  refine ⟨_, map_eq_ok.2 ⟨_, runStages_eq_of_fixed hhash hfixed, rfl⟩, ?_, ?_⟩
  · simp
  · simp [StageRecord.isNoop]

/-- Preparing brings a grammar into normal form. -/
theorem isPrepared_of_prepared {g p : Grammar} {report : Report}
    (h : g.prepared = .ok (p, report)) : p.IsPrepared := by
  obtain ⟨inlined, hinlined, rfl⟩ := exists_inlined_of_prepared h
  have hrules := rulesOf_textPasses inlined
  refine ⟨isNormal_textPasses inlined, ?_, ?_⟩
  · intro rule hrule
    rw [Grammar.rules, hrules] at hrule
    obtain ⟨before, hbefore, rfl⟩ := List.mem_map.1 hrule
    rw [(reworded_tokenizeNodes _).references_eq, (reworded_normalizeNodes _).references_eq,
      hinlined.references_eq_nil before hbefore]
  · -- The passes keep the ids, so they keep which rule is the root rule.
    have hfind : ∀ id, findRule? ((rulesOf inlined).map fun rule =>
        { rule with body := tokenizeNodes (normalizeNodes rule.body) }) id =
          (findRule? (rulesOf inlined) id).map fun rule =>
            { rule with body := tokenizeNodes (normalizeNodes rule.body) } :=
      findRule?_map fun _ => rfl
    simp only [Grammar.rootRule?, Grammar.rule?, Grammar.rules, hrules]
    conv_lhs => rw [hinlined.rulesOf_eq_toList]
    cases g.root with
    | none => rfl
    | some root =>
        simp only [Option.bind_some, Grammar.rule?, Grammar.rules, hrules, hfind]
        cases findRule? (rulesOf inlined) root <;> rfl

/-- The root rule of a prepared grammar has the id and the scope that it had before. -/
theorem rules_of_prepared {g p : Grammar} {report : Report} (h : g.prepared = .ok (p, report)) :
    (∀ root, g.rootRule? = some root → ∃ body, p.rules = [{ root with body := body }]) ∧
      (g.rootRule? = none → p.rules = []) := by
  obtain ⟨inlined, hinlined, rfl⟩ := exists_inlined_of_prepared h
  have hrules := rulesOf_textPasses inlined
  constructor
  · intro root hroot
    obtain ⟨body, -, hsingle⟩ := hinlined.rulesOf_eq hroot
    rw [hsingle, List.map_singleton] at hrules
    exact ⟨_, hrules⟩
  · intro hroot
    rw [hinlined.rulesOf_eq_nil hroot] at hrules
    exact hrules

/-! ## Compiling -/

theorem Grammar.IsPrepared.compileRule_eq_error {g : Grammar} (h : g.IsPrepared)
    {mode : Option Mode} {options : CompileOptions} {e : Error}
    (he : compileRule g.rootRule? mode options = .error e) : ∃ fault, e = .pattern fault :=
  SpeechGrammar.compileRule_eq_error
    (fun rule hrule => h.references_eq_nil rule (mem_rules_of_rootRule? hrule)) he

/-- Preparing brings a grammar into normal form, with its root rule as the only rule if it has
one. Only the pattern of a prepared grammar can be objected to, never a reference. Preparing it
again changes nothing, and each of the three stages reports so. -/
theorem prepared_normalForm {g p : Grammar} {report : Report}
    (h : g.prepared = .ok (p, report)) :
    p.IsPrepared ∧
      (∀ root, g.rootRule? = some root → ∃ body, p.rules = [{ root with body := body }]) ∧
      (g.rootRule? = none → p.rules = []) ∧
      (∀ options interpreter e, p.compile options interpreter = .error e ∨
        p.toPattern = .error e → ∃ fault, e = .pattern fault) ∧
      ∃ again, p.prepared = .ok (p, again) ∧
        again.stages.map StageRecord.id = standardStages.map Stage.id ∧
        ∀ record ∈ again.stages, record.isNoop = true := by
  have hp : p.IsPrepared := isPrepared_of_prepared h
  obtain ⟨hroot, hnone⟩ := rules_of_prepared h
  refine ⟨hp, hroot, hnone, ?_, hp.prepared_eq⟩
  rintro options interpreter e (he | he)
  · exact hp.compileRule_eq_error (map_eq_error.1 he)
  · exact hp.compileRule_eq_error he

theorem prepared_normalForm_callGrammar :
    ∃ p report root again, callGrammar.prepared = .ok (p, report) ∧ p.IsPrepared ∧
      callGrammar.rootRule? = some root ∧ (∃ body, p.rules = [{ root with body := body }]) ∧
      p.prepared = .ok (p, again) ∧ ∀ record ∈ again.stages, record.isNoop = true := by
  obtain ⟨report, hprepared⟩ := prepared_eq_ok_iff.2 ⟨_, inlineChildren_callGrammar, rfl⟩
  have hroot : callGrammar.rootRule? = some { id := "call", body := callBody (.ruleRef "#who") } :=
    rfl
  obtain ⟨hp, hrules, -, -, again, hagain, -, hnoop⟩ := prepared_normalForm hprepared
  exact ⟨_, report, _, again, hprepared, hp, hroot, hrules _ hroot, hagain, hnoop⟩

end SpeechGrammar
