import SpeechGrammar.Grammar.Error
import SpeechGrammar.Grammar.Node

set_option autoImplicit false

/-!
# References between rules

A reference stands for the first rule with the id it names. Two walks follow references:
`checkRule` visits every rule that can be reached and remembers which ones are done, and
`expandRule` replaces every reference by the body it stands for. Both carry the ids of the
rules that are being walked, oldest first, and stop at a reference to one of them. Each step
into a rule uses up an id, so both walks end on every list of rules.
-/

namespace SpeechGrammar

/-- The rule that a uri refers to. -/
def resolve (rules : List Rule) (uri : String) : Except Error Rule :=
  match (targetId? uri).bind (findRule? rules) with
  | none => .error (.unresolvedReference uri)
  | some rule => .ok rule

/-- The number of rules whose id is not on the path. -/
def unusedRules (rules : List Rule) (path : List String) : Nat :=
  rules.countP (fun rule => !path.contains rule.id)

theorem mem_of_resolve {rules : List Rule} {uri : String} {rule : Rule}
    (h : resolve rules uri = .ok rule) : rule ∈ rules := by
  unfold resolve at h
  split at h
  · cases h
  · rename_i found hfound
    cases h
    obtain ⟨id, -, hid⟩ := Option.bind_eq_some_iff.1 hfound
    exact List.mem_of_find?_eq_some hid

theorem unusedRules_lt {rules : List Rule} {path : List String} {rule : Rule}
    (hmem : rule ∈ rules) (hnew : ¬ rule.id ∈ path) :
    unusedRules rules (path ++ [rule.id]) < unusedRules rules path := by
  have hle : ∀ l : List Rule, unusedRules l (path ++ [rule.id]) ≤ unusedRules l path := by
    intro l
    refine List.countP_mono_left ?_
    intro r _ hr
    simp only [Bool.not_eq_true', List.contains_eq_mem, decide_eq_false_iff_not,
      List.mem_append, not_or] at hr ⊢
    exact hr.1
  obtain ⟨before, after, rfl⟩ := List.append_of_mem hmem
  have h1 := hle before
  have h2 := hle after
  simp only [unusedRules, List.countP_append, List.countP_cons] at *
  simp only [List.contains_eq_mem, hnew, decide_false, Bool.not_false, if_true,
    List.mem_append, List.mem_singleton, or_true, decide_true, Bool.not_true] at *
  simp only [Bool.false_eq_true, if_false] at *
  omega

/-! ## Checking -/

/-- Check the references `uris` below the rules of `path`. The rules in `checked` are done and
are not walked again. The second part of the result is what is done afterwards, which is kept
after an error too. -/
def checkReferences (rules : List Rule) (path : List String) :
    (uris : List String) → (checked : List String) → Except Error Unit × List String
  | [], checked => (.ok (), checked)
  | uri :: uris, checked =>
      match _h : resolve rules uri with
      | .error e => (.error e, checked)
      | .ok target =>
          -- Where two rules share an id, it can be done and on the path. Then the path counts.
          if _hp : target.id ∈ path then
            (.error (.cyclicReference (path ++ [target.id])), checked)
          else if target.id ∈ checked then checkReferences rules path uris checked
          else
            match checkReferences rules (path ++ [target.id]) (references target.body) checked with
            | (.error e, checked) => (.error e, checked)
            | (.ok (), checked) => checkReferences rules path uris (target.id :: checked)
termination_by uris => (unusedRules rules path, uris.length)
decreasing_by
  · exact Prod.Lex.right _ (Nat.lt_succ_self _)
  · exact Prod.Lex.left _ _ (unusedRules_lt (mem_of_resolve _h) _hp)
  · exact Prod.Lex.right _ (Nat.lt_succ_self _)

/-- The rule at the position is the first one with its id. -/
def isFirst (rules : List Rule) (position : Nat) : Bool :=
  match rules[position]? with
  | none => false
  | some rule => rules.findIdx? (·.id == rule.id) == some position

/-- Check everything that the rule at the position refers to. Only the first rule with an id is
remembered as done. -/
def checkRule (rules : List Rule) (position : Nat) (checked : List String) :
    Except Error Unit × List String :=
  match rules[position]? with
  | none => (.ok (), checked)
  | some rule =>
      match checkReferences rules [rule.id] (references rule.body) checked with
      | (.error e, checked) => (.error e, checked)
      | (.ok (), checked) =>
          (.ok (), if isFirst rules position then rule.id :: checked else checked)

/-- Check the rules at the positions in turn, up to the first error. -/
def checkRules (rules : List Rule) :
    (positions : List Nat) → (checked : List String) → Except Error Unit
  | [], _ => .ok ()
  | position :: positions, checked =>
      match checkRule rules position checked with
      | (.error e, _) => .error e
      | (.ok (), checked) => checkRules rules positions checked

/-! ## Expanding -/

mutual

/-- Replace every reference in a node, at any depth, by the nodes that `target` gives for it. -/
def Node.splice (target : String → Except Error (List Node)) : Node → Except Error (List Node)
  | .ruleRef uri => target uri
  | .element container children =>
      (spliceAll target children).map fun spliced => [.element container spliced]
  | node => .ok [node]

/-- Replace every reference in a list of nodes, at any depth, by the nodes that `target` gives
for it. The first error in document order wins. -/
def spliceAll (target : String → Except Error (List Node)) :
    List Node → Except Error (List Node)
  | [] => .ok []
  | n :: ns =>
      (n.splice target).bind fun spliced => (spliceAll target ns).map (spliced ++ ·)

end

/-- The nodes below the rules of `path` with every reference replaced by the expanded body of
its rule. -/
def expandNodes (rules : List Rule) (path : List String) (nodes : List Node) :
    Except Error (List Node) :=
  spliceAll (fun uri =>
    match _h : resolve rules uri with
    | .error e => .error e
    | .ok target =>
        if _hp : target.id ∈ path then .error (.cyclicReference (path ++ [target.id]))
        else expandNodes rules (path ++ [target.id]) target.body) nodes
termination_by unusedRules rules path
decreasing_by exact unusedRules_lt (mem_of_resolve _h) _hp

/-- The body of a rule with every reference replaced by the expanded body of its rule. -/
def expandRule (rules : List Rule) (rule : Rule) : Except Error (List Node) :=
  expandNodes rules [rule.id] rule.body

/-! ## Inlining -/

/-- Keep the nodes of a grammar and, of its rules, the first one with the root id, with a new
body. -/
def keepRoot (root : String) (body : List Node) : List Child → List Child
  | [] => []
  | .node n :: rest => .node n :: keepRoot root body rest
  | .rule r :: rest =>
      if r.id = root then .rule { r with body := body } :: rest.filter (·.rule?.isNone)
      else keepRoot root body rest

/-- Inline every reference of the root rule and drop every other rule. All rules are checked
first, but only the root is expanded. Without a root rule no rule is left. -/
def inlineChildren (root? : Option String) (children : List Child) :
    Except Error (List Child) :=
  let rules := rulesOf children
  match checkRules rules (List.range rules.length) [] with
  | .error e => .error e
  | .ok () =>
      match root? with
      | none => .ok (children.filter (·.rule?.isNone))
      | some root =>
          match findRule? rules root with
          | none => .ok (children.filter (·.rule?.isNone))
          | some rule => (expandRule rules rule).map (fun body => keepRoot root body children)

end SpeechGrammar
