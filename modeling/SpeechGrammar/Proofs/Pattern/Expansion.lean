import SpeechGrammar.Proofs.Pattern.Reference

set_option autoImplicit false

/-!
# Fragments of an expansion

`resolvedFragment` reads a reference as the fragment of the body of its rule, without expanding
anything. It fails where expanding does, with the same error (`resolvedFragment_outcome`). An
expansion has this fragment (`sameFragments_expandNodes`), as the body of a rule is a sequence
wherever it is put; in a choice it has to be one alternative, since its nodes are put there one by
one.
-/

namespace SpeechGrammar

variable {rules : List Rule} {sep : Separator}

/-! ## References read as fragments -/

/-- The fragment of the nodes below the rules of `path`, where a reference has the fragment of the
body of its rule, as one sequence. -/
def resolvedFragment (rules : List Rule) (sep : Separator) (path : List String)
    (nodes : List Node) : Except Error (List Char) :=
  sequenceFragmentOver sep (fun uri =>
    match _h : resolve rules uri with
    | .error e => .error e
    | .ok target =>
        if _hp : target.id ∈ path then .error (.cyclicReference (path ++ [target.id]))
        else resolvedFragment rules sep (path ++ [target.id]) target.body) nodes
termination_by unusedRules rules path
decreasing_by exact unusedRules_lt (mem_of_resolve _h) _hp

/-- The fragment that a reference below the rules of a path stands for. -/
def referenceFragment (rules : List Rule) (sep : Separator) (path : List String) (uri : String) :
    Except Error (List Char) :=
  (resolve rules uri).bind fun target =>
    if target.id ∈ path then .error (.cyclicReference (path ++ [target.id]))
    else resolvedFragment rules sep (path ++ [target.id]) target.body

theorem resolvedFragment_eq (path : List String) (nodes : List Node) :
    resolvedFragment rules sep path nodes =
      sequenceFragmentOver sep (referenceFragment rules sep path) nodes := by
  rw [resolvedFragment]
  congr 1
  funext uri
  rw [referenceFragment]
  cases resolve rules uri with
  | error e => rfl
  | ok target => rfl

theorem referenceFragment_of_notMem {path : List String} {uri : String} {target : Rule}
    (htarget : resolve rules uri = .ok target) (hpath : target.id ∉ path) :
    referenceFragment rules sep path uri =
      resolvedFragment rules sep (path ++ [target.id]) target.body := by
  rw [referenceFragment, htarget, Except.bind, if_neg hpath]

/-- Reading references as fragments succeeds or fails as expanding them does. -/
theorem resolvedFragment_outcome (path : List String) (nodes : List Node) :
    (resolvedFragment rules sep path nodes).map (fun _ => ()) =
      (expandNodes rules path nodes).map fun _ => () := by
  rw [resolvedFragment_eq, sequenceFragmentOver_outcome, expandNodes_outcome]
  refine visitAll_congr (fun uri => ?_) _
  -- Both step into a rule that is not on the path, or stop for the same reason.
  rw [referenceFragment, expandReference]
  cases htarget : resolve rules uri with
  | error e => rfl
  | ok target =>
      by_cases hpath : target.id ∈ path
      · simp only [Except.bind, if_pos hpath]
        rfl
      · simp only [Except.bind, if_neg hpath]
        exact resolvedFragment_outcome (path ++ [target.id]) target.body
termination_by unusedRules rules path
decreasing_by exact unusedRules_lt (mem_of_resolve htarget) hpath

/-! ## One alternative -/

/-- The node is a tag. -/
def Node.isTag : Node → Bool
  | .tag _ => true
  | _ => false

theorem Node.ne_tag_of_isTag_eq_false {n : Node} (h : n.isTag = false) : ∀ c, n ≠ .tag c := by
  rintro c rfl
  cases h

section Tags

variable {refs : String → Except Error (List Char)}

/-- Tags add nothing to a sequence. -/
theorem sequenceFragmentOver_filter (ns : List Node) :
    sequenceFragmentOver sep refs (ns.filter fun n => !n.isTag) =
      sequenceFragmentOver sep refs ns := by
  induction ns with
  | nil => rfl
  | cons n ns ih =>
      cases hn : n.isTag with
      | false =>
          rw [List.filter_cons_of_pos (by simp [hn]), sequenceFragmentOver, sequenceFragmentOver,
            ih]
      | true =>
          rw [List.filter_cons_of_neg (by simp [hn]), ih]
          cases n with
          | tag c =>
              rw [sequenceFragmentOver, Node.fragmentOver]
              cases sequenceFragmentOver sep refs ns with
              | error e => rfl
              | ok source => rfl
          | literal _ | token _ | ruleRef _ | element _ _ => cases hn

/-- Tags are not among the alternatives. -/
theorem alternativeFragmentsOver_filter (ns : List Node) :
    alternativeFragmentsOver sep refs (ns.filter fun n => !n.isTag) =
      alternativeFragmentsOver sep refs ns := by
  induction ns with
  | nil => rfl
  | cons n ns ih =>
      cases hn : n.isTag with
      | false =>
          have hnot := Node.ne_tag_of_isTag_eq_false hn
          rw [List.filter_cons_of_pos (by simp [hn]), alternativeFragmentsOver_cons hnot,
            alternativeFragmentsOver_cons hnot, ih]
      | true =>
          rw [List.filter_cons_of_neg (by simp [hn]), ih]
          cases n with
          | tag c => rfl
          | literal _ | token _ | ruleRef _ | element _ _ => cases hn

/-- A single node among tags is one alternative, with the fragment that all have in sequence. -/
theorem alternativeFragmentsOver_of_filter_eq {k : Node} {ks : List Node}
    (h : (ks.filter fun n => !n.isTag) = [k]) :
    alternativeFragmentsOver sep refs ks =
      (sequenceFragmentOver sep refs ks).map fun source => [source] := by
  have hk : k.isTag = false := by
    have hmem : k ∈ ks.filter fun n => !n.isTag := by simp [h]
    simpa using (List.mem_filter.1 hmem).2
  rw [← alternativeFragmentsOver_filter, ← sequenceFragmentOver_filter, h,
    alternativeFragmentsOver_singleton (Node.ne_tag_of_isTag_eq_false hk),
    sequenceFragmentOver_singleton]

end Tags

/-- A reference expands to a single node, tags apart. -/
def Node.IsOneAlternative (rules : List Rule) : Node → Prop
  | .ruleRef uri =>
      ∀ ks, Expands rules [.ruleRef uri] ks → ∃ k, (ks.filter fun n => !n.isTag) = [k]
  | _ => True

/-! ## Expanding -/

section Splice

variable {target : String → Except Error (List Node)} {refs : String → Except Error (List Char)}
  {P : Node → Prop}

mutual

theorem sameFragments_splice : ∀ (n : Node) {ms : List Node}, (∀ m ∈ n.walk, m.Offers P) →
    (∀ uri ∈ references [n], ∀ ks, target uri = .ok ks →
      SameFragments sep refs P ks [.ruleRef uri]) →
      n.splice target = .ok ms → SameFragments sep refs P ms [n]
  | .literal _, _, _, _, h => by
      cases h
      exact .refl _
  | .token _, _, _, _, h => by
      cases h
      exact .refl _
  | .tag _, _, _, _, h => by
      cases h
      exact .refl _
  | .ruleRef uri, ms, _, htarget, h => htarget uri (List.mem_singleton_self uri) ms h
  | .element container children, _, hoffers, htarget, h => by
      obtain ⟨hhere, hbelow⟩ := forall_mem_walk_element.1 hoffers
      rw [references_singleton_element] at htarget
      obtain ⟨spliced, hspliced, rfl⟩ := map_eq_ok.1 h
      exact (sameFragments_spliceAll children hbelow htarget hspliced).element hhere

/-- Replacing each reference by nodes with its fragments keeps the fragments. -/
theorem sameFragments_spliceAll : ∀ (ns : List Node) {ms : List Node}, ChoicesOffer P ns →
    (∀ uri ∈ references ns, ∀ ks, target uri = .ok ks →
      SameFragments sep refs P ks [.ruleRef uri]) →
      spliceAll target ns = .ok ms → SameFragments sep refs P ms ns
  | [], _, _, _, h => by
      cases h
      exact .refl _
  | n :: ns, _, hoffers, htarget, h => by
      obtain ⟨hn, hns⟩ := forall_mem_walkAll_cons.1 hoffers
      rw [references_cons] at htarget
      obtain ⟨hhead, htail⟩ := List.forall_mem_append.1 htarget
      obtain ⟨first, hfirst, hmap⟩ := bind_eq_ok.1 h
      obtain ⟨rest, hrest, rfl⟩ := map_eq_ok.1 hmap
      exact (sameFragments_splice n hn hhead hfirst).append
        (sameFragments_spliceAll ns hns htail hrest)

end

end Splice

/-- Nodes with the fragments of the body of a rule take the place of a reference to the rule. -/
theorem SameFragments.reference {path : List String} {uri : String} {target : Rule}
    {ks : List Node} (htarget : resolve rules uri = .ok target) (hpath : target.id ∉ path)
    (hks : Expands rules [.ruleRef uri] ks)
    (h : SameFragments sep (referenceFragment rules sep (path ++ [target.id]))
      (Node.IsOneAlternative rules) ks target.body) :
    SameFragments sep (referenceFragment rules sep path) (Node.IsOneAlternative rules) ks
      [.ruleRef uri] := by
  have hnone : references ks = [] := hks.references_eq_nil
  refine .of_fragmentOver_eq (by simp) ?_ fun hone => ?_
  · -- Nothing in the nodes refers to anything any more, so the path plays no role for them.
    calc sequenceFragmentOver sep (referenceFragment rules sep path) ks
        = sequenceFragment sep ks := sequenceFragmentOver_of_references_eq_nil hnone
      _ = sequenceFragmentOver sep (referenceFragment rules sep (path ++ [target.id])) ks :=
          (sequenceFragmentOver_of_references_eq_nil hnone).symm
      _ = resolvedFragment rules sep (path ++ [target.id]) target.body := by
          rw [h.sequence, resolvedFragment_eq]
      _ = referenceFragment rules sep path uri :=
          (referenceFragment_of_notMem htarget hpath).symm
  · obtain ⟨k, hk⟩ := hone ks hks
    exact alternativeFragmentsOver_of_filter_eq hk

/-- The nodes, and the bodies of the rules that they refer to, directly or through others. -/
inductive Reaches (rules : List Rule) : List Node → List Node → Prop
  | refl {ns : List Node} : Reaches rules ns ns
  | step {ns ms : List Node} {uri : String} {target : Rule} (huri : uri ∈ references ns)
      (htarget : resolve rules uri = .ok target) (h : Reaches rules target.body ms) :
      Reaches rules ns ms

/-- What all rules offer to choose from is all that can be reached. -/
theorem Reaches.choicesOffer {P : Node → Prop} {ns ms : List Node} (h : Reaches rules ns ms)
    (hns : ChoicesOffer P ns) (hrules : ∀ rule ∈ rules, ChoicesOffer P rule.body) :
    ChoicesOffer P ms := by
  induction h with
  | refl => exact hns
  | step _ htarget _ ih => exact ih (hrules _ (mem_of_resolve htarget))

/-- What an expansion is made of has its fragments, if each reference in a choice is one
alternative. -/
theorem sameFragments_expandNodes {path : List String} {nodes body : List Node}
    (hchoices : ∀ ns, Reaches rules nodes ns → ChoicesOffer (Node.IsOneAlternative rules) ns)
    (h : expandNodes rules path nodes = .ok body) :
    SameFragments sep (referenceFragment rules sep path) (Node.IsOneAlternative rules) body
      nodes := by
  rw [expandNodes_eq] at h
  refine sameFragments_spliceAll nodes (hchoices nodes .refl) (fun uri huri ks hks => ?_) h
  obtain ⟨target, htarget, hpath, hbody⟩ := expandReference_eq_ok.1 hks
  have hexpands : Expands rules [.ruleRef uri] ks := by
    simpa using Expands.ruleRef htarget (expands_of_expandNodes hbody) .nil
  have hbelow : ∀ ns, Reaches rules target.body ns →
      ChoicesOffer (Node.IsOneAlternative rules) ns := fun ns hns =>
    hchoices ns (.step huri htarget hns)
  exact .reference htarget hpath hexpands (sameFragments_expandNodes hbelow hbody)
termination_by unusedRules rules path
decreasing_by exact unusedRules_lt (mem_of_resolve htarget) hpath

/-- Reading each reference as the body of its rule, as one sequence, fails exactly where expanding
the rule does. The expanded body has the fragment that is read this way, wherever the references
stand, if those directly in a choice expand to a single node, tags apart. -/
theorem sequenceFragment_expandRule (children : List Child) (rule : Rule) (sep : Separator) :
    (∀ e, resolvedFragment (rulesOf children) sep [rule.id] rule.body = .error e ↔
        expandRule (rulesOf children) rule = .error e) ∧
      ∀ body, expandRule (rulesOf children) rule = .ok body →
        ∃ source, sequenceFragment sep body = .ok source ∧
          ((∀ nodes, Reaches (rulesOf children) rule.body nodes →
              ChoicesOffer (Node.IsOneAlternative (rulesOf children)) nodes) →
            resolvedFragment (rulesOf children) sep [rule.id] rule.body = .ok source) := by
  constructor
  · intro e
    rw [← map_eq_error (f := fun _ => ()), resolvedFragment_outcome, map_eq_error, expandRule]
  · intro body hbody
    have hnone : references body = [] := (expands_of_expandNodes hbody).references_eq_nil
    obtain ⟨source, hsource⟩ :=
      exists_sequenceFragment sep body (references_eq_nil_iff.1 hnone)
    refine ⟨source, hsource, fun hchoices => ?_⟩
    rw [resolvedFragment_eq, ← (sameFragments_expandNodes hchoices hbody).sequence,
      sequenceFragmentOver_of_references_eq_nil hnone, hsource]


/-- A choice between a name and a polite form of it. -/
def callerRule : Rule :=
  { id := "caller"
    body := [.element .oneOf [.ruleRef "#name",
      .element (.item none) [.ruleRef "#name", .ruleRef "#polite"]]] }

/-- A name in one item, behind a tag. -/
def nameRule : Rule :=
  { id := "name", body := [.tag "who", .element (.item none) [.literal "john smith"]] }

/-- Two tokens. -/
def politeRule : Rule := { id := "polite", body := [.token "if", .token "you please"] }

/-- The choice with the two rules that it refers to. -/
def callerRules : List Rule := [callerRule, nameRule, politeRule]

theorem resolve_name : resolve callerRules "#name" = .ok nameRule := by rfl

theorem resolve_polite : resolve callerRules "#polite" = .ok politeRule := by rfl

theorem expandRule_callerRule : expandRule callerRules callerRule =
    .ok [.element .oneOf [.tag "who", .element (.item none) [.literal "john smith"],
      .element (.item none) [.tag "who", .element (.item none) [.literal "john smith"],
        .token "if", .token "you please"]]] := by
  simp [expandRule, expandNodes_eq, spliceAll, Node.splice, expandReference, resolve_name,
    resolve_polite, Except.bind, Except.map, nameRule, politeRule, callerRule]

theorem isOneAlternative_name : (Node.ruleRef "#name").IsOneAlternative callerRules := by
  intro ks hks
  have hexpand : expandNodes callerRules [] [.ruleRef "#name"] = .ok nameRule.body := by
    simp [expandNodes_eq, spliceAll, Node.splice, expandReference, resolve_name, Except.bind,
      Except.map, nameRule]
  rw [hks.unique (expands_of_expandNodes hexpand)]
  exact ⟨_, rfl⟩

theorem choicesOffer_callerRules :
    ∀ rule ∈ callerRules, ChoicesOffer (Node.IsOneAlternative callerRules) rule.body := by
  have hitem : ∀ occurs children,
      (Node.element (.item occurs) children).IsOneAlternative callerRules := fun _ _ => trivial
  intro rule hrule
  have hcases : rule = callerRule ∨ rule = nameRule ∨ rule = politeRule := by
    simpa [callerRules] using hrule
  rcases hcases with rfl | rfl | rfl
  · simpa [ChoicesOffer, walkAll, Node.walk, Node.Offers, callerRule, hitem] using
      isOneAlternative_name
  · simp [ChoicesOffer, walkAll, Node.walk, Node.Offers, nameRule]
  · simp [ChoicesOffer, walkAll, Node.walk, Node.Offers, politeRule]

theorem sequenceFragment_expandRule_callerRule :
    ∃ body source, expandRule callerRules callerRule = .ok body ∧
      (∀ nodes, Reaches callerRules callerRule.body nodes →
        ChoicesOffer (Node.IsOneAlternative callerRules) nodes) ∧
      sequenceFragment .space body = .ok source ∧
      resolvedFragment callerRules .space [callerRule.id] callerRule.body = .ok source := by
  have hchoices : ∀ nodes, Reaches callerRules callerRule.body nodes →
      ChoicesOffer (Node.IsOneAlternative callerRules) nodes := fun nodes h =>
    h.choicesOffer (choicesOffer_callerRules callerRule (by simp [callerRules]))
      choicesOffer_callerRules
  have hrules : rulesOf (callerRules.map Child.rule) = callerRules := rfl
  obtain ⟨-, hsame⟩ := sequenceFragment_expandRule (callerRules.map Child.rule) callerRule .space
  rw [hrules] at hsame
  obtain ⟨source, hsource, hresolved⟩ := hsame _ expandRule_callerRule
  exact ⟨_, source, expandRule_callerRule, hchoices, hsource, hresolved hchoices⟩

/-- A choice between somebody and nobody. -/
def whoRule : Rule :=
  { id := "who"
    body := [.element .oneOf [.ruleRef "#full", .element (.item none) [.token "nobody"]]] }

/-- Two names, one behind the other. -/
def fullRule : Rule := { id := "full", body := [.token "john", .token "smith"] }

/-- The choice with the rule that it refers to. -/
def whoRules : List Rule := [whoRule, fullRule]

/-- The two nodes of a rule become two alternatives where a choice refers to the rule. -/
theorem sequenceFragment_expandRule_ne :
    (∃ body, expandRule whoRules whoRule = .ok body ∧
      sequenceFragment .space body = .ok "(?: john| smith| nobody)".toList) ∧
    resolvedFragment whoRules .space [whoRule.id] whoRule.body =
      .ok "(?: john smith| nobody)".toList ∧
    ¬ ∀ children, ∀ rule ∈ rulesOf children, ∀ sep body,
      expandRule (rulesOf children) rule = .ok body →
        sequenceFragment sep body =
          resolvedFragment (rulesOf children) sep [rule.id] rule.body := by
  have hfull : resolve whoRules "#full" = .ok fullRule := rfl
  have hbody : expandRule whoRules whoRule =
      .ok [.element .oneOf [.token "john", .token "smith",
        .element (.item none) [.token "nobody"]]] := by
    simp [expandRule, expandNodes_eq, spliceAll, Node.splice, expandReference, hfull, Except.bind,
      Except.map, fullRule, whoRule]
  have hexpanded : sequenceFragment .space [.element .oneOf [.token "john", .token "smith",
      .element (.item none) [.token "nobody"]]] = .ok "(?: john| smith| nobody)".toList := by
    decide +kernel
  -- The rule is one sequence where the choice reads it.
  have hresolved : resolvedFragment whoRules .space [whoRule.id] whoRule.body =
      .ok "(?: john smith| nobody)".toList := by
    have hreference : referenceFragment whoRules .space [whoRule.id] "#full" =
        .ok " john smith".toList := by
      rw [referenceFragment_of_notMem hfull (by decide), resolvedFragment_eq,
        sequenceFragmentOver_of_references_eq_nil rfl]
      decide +kernel
    have hchoice : ∀ refs : String → Except Error (List Char),
        refs "#full" = .ok " john smith".toList →
          sequenceFragmentOver .space refs whoRule.body =
            .ok "(?: john smith| nobody)".toList := by
      intro refs hrefs
      simp only [whoRule, sequenceFragmentOver, Node.fragmentOver, alternativeFragmentsOver, hrefs]
      rfl
    rw [resolvedFragment_eq]
    exact hchoice _ hreference
  refine ⟨⟨_, hbody, hexpanded⟩, hresolved, fun h => ?_⟩
  have hsame := h (whoRules.map Child.rule) whoRule (List.mem_cons_self ..) .space _ hbody
  have hrules : rulesOf (whoRules.map Child.rule) = whoRules := rfl
  rw [hrules, hexpanded, hresolved] at hsame
  exact absurd hsame (by decide)

end SpeechGrammar
