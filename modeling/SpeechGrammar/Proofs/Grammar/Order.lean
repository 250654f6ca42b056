import SpeechGrammar.Proofs.Grammar.Inline

set_option autoImplicit false

/-!
# The order of rules

Whether a grammar can be inlined does not depend on the order in which its rules stand, as long as
the first rule with each id stays the first (`inlineChildren_perm`). The exception is a later rule
with an id that leads back to the id through other rules. The check starts with the id of such a
rule on its path, and a reference that ends the walk there is for the first rule with the id, so no
circle is closed; but the walk stops short of it only if the rules between have been checked before.
-/

namespace SpeechGrammar

open Relation

variable {rules others : List Rule}

/-! ## References to the own id -/

/-- A walk without error meets none of the rules on its path. -/
theorem Walk.notMem_path {path uris done after : List String} {outcome : Except Error Unit}
    (h : Walk rules path uris done outcome after) (hok : outcome = .ok ()) :
    ∀ uri ∈ uris, ∀ target, resolve rules uri = .ok target → target.id ∉ path := by
  induction h with
  | nil => simp
  | unresolved _ | cyclic _ _ | failed _ _ _ _ _ => cases hok
  | skipped htarget hnot _ _ ih | passed htarget hnot _ _ _ _ ih =>
      rw [List.forall_mem_cons]
      refine ⟨fun target htarget' => ?_, ih hok⟩
      rw [htarget] at htarget'
      cases htarget'
      exact hnot

/-- When rules have been checked without error, each of them has been so by itself. -/
theorem exists_checkRule_of_checkRules {positions : List Nat} {checked : List String}
    (h : checkRules rules positions checked = .ok ()) {position : Nat}
    (hposition : position ∈ positions) :
    ∃ before, (checkRule rules position before).1 = .ok () := by
  induction positions generalizing checked with
  | nil => cases hposition
  | cons first positions ih =>
      rw [checkRules] at h
      rcases hfirst : checkRule rules first checked with ⟨_ | _, after⟩
      · rw [hfirst] at h
        cases h
      · rw [hfirst] at h
        rcases List.mem_cons.1 hposition with rfl | hposition
        · exact ⟨checked, by rw [hfirst]⟩
        · exact ih h hposition

/-- The rule refers to its own id. -/
def RefersToItself (rules : List Rule) (rule : Rule) : Prop :=
  ∃ uri ∈ references rule.body, ∃ target, resolve rules uri = .ok target ∧ target.id = rule.id

/-- A rule that refers to its own id is never checked without error, wherever it stands. -/
theorem not_refersToItself_of_checkRules
    (h : checkRules rules (List.range rules.length) [] = .ok ()) {rule : Rule}
    (hrule : rule ∈ rules) : ¬ RefersToItself rules rule := by
  rintro ⟨uri, huri, target, htarget, hid⟩
  obtain ⟨position, hlt, hget⟩ := List.getElem_of_mem hrule
  have hrule : rules[position]? = some rule := by rw [List.getElem?_eq_getElem hlt, hget]
  obtain ⟨before, hok⟩ := exists_checkRule_of_checkRules h (List.mem_range.2 hlt)
  rcases checkRule_cases hrule before with ⟨e, after, -, hcheck⟩ | ⟨after, hwalk, -⟩
  · rw [hcheck] at hok
    cases hok
  · exact hwalk.notMem_path rfl uri huri target htarget (List.mem_singleton.2 hid)

/-! ## What the check of all rules decides -/

/-- The rule refers to a rule with another id that leads to its id. -/
def LeadsBackThroughOthers (rules : List Rule) (rule : Rule) : Prop :=
  ∃ uri ∈ references rule.body, ∃ target, resolve rules uri = .ok target ∧
    target.id ≠ rule.id ∧ ReflTransGen (Refers rules) target.id rule.id

/-- No rule but the first with an id leads back to the id through other rules. -/
def LaterRulesLeadOn (rules : List Rule) : Prop :=
  ∀ rule ∈ rules, findRule? rules rule.id ≠ some rule → ¬ LeadsBackThroughOthers rules rule

/-- If later rules with an id do not lead back to it through others, the check decides something
that does not depend on an order. -/
theorem checkRules_eq_ok_iff (hlater : LaterRulesLeadOn rules) :
    checkRules rules (List.range rules.length) [] = .ok () ↔
      Resolves rules ∧ Acyclic rules ∧ ∀ rule ∈ rules, ¬ RefersToItself rules rule := by
  constructor
  · intro h
    obtain ⟨hresolves, hacyclic, -⟩ := sound_of_checkRules h
    exact ⟨hresolves, hacyclic, fun rule hrule => not_refersToItself_of_checkRules h hrule⟩
  · rintro ⟨hresolves, hacyclic, hself⟩
    refine checkRules_eq_ok_of_base hresolves hacyclic (fun rule hrule => ?_)
      (fun _ _ _ hrule => List.mem_of_getElem? hrule) .refl
    by_cases hfirst : findRule? rules rule.id = some rule
    · exact hacyclic.not_leadsBack hfirst
    · rintro ⟨uri, huri, target, htarget, hlead⟩
      by_cases hid : target.id = rule.id
      · exact hself rule hrule ⟨uri, huri, target, htarget, hid⟩
      · exact hlater rule hrule hfirst ⟨uri, huri, target, htarget, hid, hlead⟩

/-! ## Rules in another order -/

/-- References only depend on the first rule with each id. -/
theorem resolve_congr (hfirst : ∀ id, findRule? rules id = findRule? others id) :
    resolve rules = resolve others := by
  funext uri
  rw [resolve, resolve, funext hfirst]

theorem refers_congr (hfirst : ∀ id, findRule? rules id = findRule? others id) :
    Refers rules = Refers others := by
  funext a b
  simp only [Refers, hfirst, resolve_congr hfirst]

theorem LaterRulesLeadOn.perm (h : LaterRulesLeadOn rules) (hperm : rules.Perm others)
    (hfirst : ∀ id, findRule? rules id = findRule? others id) : LaterRulesLeadOn others := by
  intro rule hrule hnot
  rw [← hfirst] at hnot
  have hleads := h rule (hperm.mem_iff.2 hrule) hnot
  rwa [LeadsBackThroughOthers, resolve_congr hfirst, refers_congr hfirst] at hleads

/-- Inlining succeeds if checking all rules does. -/
theorem exists_inlined_iff {root? : Option String} {children : List Child} :
    (∃ inlined, inlineChildren root? children = .ok inlined) ↔
      checkRules (rulesOf children) (List.range (rulesOf children).length) [] = .ok () := by
  constructor
  · rintro ⟨inlined, h⟩
    exact checkRules_of_inlineChildren h
  · intro h
    obtain ⟨inlined, hinlined, -⟩ := exists_inlined h root?
    exact ⟨inlined, hinlined⟩

/-- Whether a grammar can be inlined does not depend on the order of its rules, if each id keeps
its first rule, and no later rule with an id leads back to the id through other rules. -/
theorem inlineChildren_perm {children others : List Child} (hperm : children.Perm others)
    (hfirst : ∀ id, findRule? (rulesOf children) id = findRule? (rulesOf others) id)
    (hlater : LaterRulesLeadOn (rulesOf children)) (root? : Option String) :
    (∃ inlined, inlineChildren root? children = .ok inlined) ↔
      ∃ inlined, inlineChildren root? others = .ok inlined := by
  have hrules : (rulesOf children).Perm (rulesOf others) := hperm.filterMap _
  rw [exists_inlined_iff, exists_inlined_iff, checkRules_eq_ok_iff hlater,
    checkRules_eq_ok_iff (hlater.perm hrules hfirst)]
  simp only [Resolves, Acyclic, RefersToItself, resolve_congr hfirst, refers_congr hfirst,
    hrules.mem_iff]

/-- The size of a drink, a rule that refers to it, and another rule with the id `size`. -/
def sizeRules (again : Node) : List Rule :=
  [{ id := "size", body := [.token "large"] },
    { id := "drink", body := [.ruleRef "#size", .token "tea"] }, { id := "size", body := [again] }]

/-- The same rules with the two for the size next to each other. -/
def sortedSizeRules (again : Node) : List Rule :=
  [{ id := "size", body := [.token "large"] }, { id := "size", body := [again] },
    { id := "drink", body := [.ruleRef "#size", .token "tea"] }]

theorem perm_sizeRules (again : Node) : (sizeRules again).Perm (sortedSizeRules again) :=
  .cons _ (.swap ..)

theorem rulesOf_map_rule (rules : List Rule) : rulesOf (rules.map Child.rule) = rules := by
  simp [rulesOf, List.filterMap_map, Child.rule?, Function.comp_def]

theorem findRule?_sizeRules (again : Node) (id : String) :
    findRule? (sizeRules again) id = findRule? (sortedSizeRules again) id := by
  by_cases hsize : "size" = id
  · simp [sizeRules, sortedSizeRules, findRule?, hsize]
  · by_cases hdrink : "drink" = id
    · simp [sizeRules, sortedSizeRules, findRule?, hsize, hdrink]
    · simp [sizeRules, sortedSizeRules, findRule?, hsize, hdrink]

theorem resolve_size (again : Node) : resolve (sortedSizeRules again) "#size" =
    .ok { id := "size", body := [.token "large"] } := rfl

theorem resolve_drink (again : Node) : resolve (sortedSizeRules again) "#drink" =
    .ok { id := "drink", body := [.ruleRef "#size", .token "tea"] } := rfl

/-- With a token in it, the later rule for the size leads nowhere. -/
theorem laterRulesLeadOn_sizeRules : LaterRulesLeadOn (sizeRules (.token "small")) := by
  intro rule hrule hlater
  simp only [sizeRules, List.mem_cons, List.not_mem_nil, or_false] at hrule
  rcases hrule with rfl | rfl | rfl
  · exact absurd rfl hlater
  · exact absurd rfl hlater
  · rintro ⟨uri, huri, -⟩
    cases huri

theorem inlineChildren_perm_sizeRules :
    ((sizeRules (.token "small")).map Child.rule).Perm
        ((sortedSizeRules (.token "small")).map Child.rule) ∧
      LaterRulesLeadOn (rulesOf ((sizeRules (.token "small")).map Child.rule)) ∧
      ((∃ inlined, inlineChildren (some "drink")
          ((sizeRules (.token "small")).map Child.rule) = .ok inlined) ↔
        ∃ inlined, inlineChildren (some "drink")
          ((sortedSizeRules (.token "small")).map Child.rule) = .ok inlined) := by
  have hperm := (perm_sizeRules (.token "small")).map Child.rule
  have hlater : LaterRulesLeadOn (rulesOf ((sizeRules (.token "small")).map Child.rule)) := by
    rw [rulesOf_map_rule]
    exact laterRulesLeadOn_sizeRules
  refine ⟨hperm, hlater, inlineChildren_perm hperm (fun id => ?_) hlater _⟩
  rw [rulesOf_map_rule, rulesOf_map_rule, findRule?_sizeRules]

theorem references_size : references [.ruleRef "#size", .token "tea"] = ["#size"] := rfl

theorem references_drink : references [.ruleRef "#drink"] = ["#drink"] := rfl

theorem references_large : references [.token "large"] = [] := rfl

/-- Behind the rule for the drink, which has been checked by then, the later rule for the size
passes. -/
theorem checkRules_sizeRules :
    checkRules (sizeRules (.ruleRef "#drink")) [0, 1, 2] [] = .ok () := by
  have hresolve : resolve (sizeRules (.ruleRef "#drink")) =
      resolve (sortedSizeRules (.ruleRef "#drink")) := resolve_congr (findRule?_sizeRules _)
  have h0 : (sizeRules (.ruleRef "#drink"))[0]? =
      some { id := "size", body := [.token "large"] } := rfl
  have h1 : (sizeRules (.ruleRef "#drink"))[1]? =
      some { id := "drink", body := [.ruleRef "#size", .token "tea"] } := rfl
  have h2 : (sizeRules (.ruleRef "#drink"))[2]? =
      some { id := "size", body := [.ruleRef "#drink"] } := rfl
  have hfirst : isFirst (sizeRules (.ruleRef "#drink")) 0 = true := by decide
  have hfirst' : isFirst (sizeRules (.ruleRef "#drink")) 1 = true := by decide
  simp [checkRules, checkRule, h0, h1, h2, references_large, references_size, references_drink,
    checkReferences_nil, checkReferences_cons, hresolve, resolve_size, resolve_drink, hfirst,
    hfirst']

/-- In front of the rule for the drink it does not: the walk comes to a reference to the size. -/
theorem checkRules_sortedSizeRules :
    checkRules (sortedSizeRules (.ruleRef "#drink")) [0, 1, 2] [] =
      .error (.cyclicReference ["size", "drink", "size"]) := by
  have h0 : (sortedSizeRules (.ruleRef "#drink"))[0]? =
      some { id := "size", body := [.token "large"] } := rfl
  have h1 : (sortedSizeRules (.ruleRef "#drink"))[1]? =
      some { id := "size", body := [.ruleRef "#drink"] } := rfl
  have hfirst : isFirst (sortedSizeRules (.ruleRef "#drink")) 0 = true := by decide
  simp [checkRules, checkRule, h0, h1, references_large, references_size, references_drink,
    checkReferences_nil, checkReferences_cons, resolve_size, resolve_drink, hfirst]

/-- The verdict on rules of which a later one leads back to its id depends on their order, although
every reference finds the same rule in both. -/
theorem inlineChildren_perm_ne :
    checkRules (sizeRules (.ruleRef "#drink")) [0, 1, 2] [] = .ok () ∧
      checkRules (sortedSizeRules (.ruleRef "#drink")) [0, 1, 2] [] =
        .error (.cyclicReference ["size", "drink", "size"]) ∧
      ¬ ∀ children others : List Child, children.Perm others →
        (∀ id, findRule? (rulesOf children) id = findRule? (rulesOf others) id) →
        ∀ root?, (∃ inlined, inlineChildren root? children = .ok inlined) ↔
          ∃ inlined, inlineChildren root? others = .ok inlined := by
  refine ⟨checkRules_sizeRules, checkRules_sortedSizeRules, fun h => ?_⟩
  have hperm := (perm_sizeRules (.ruleRef "#drink")).map Child.rule
  have hsame := h _ _ hperm (fun id => by
    rw [rulesOf_map_rule, rulesOf_map_rule, findRule?_sizeRules]) none
  rw [exists_inlined_iff, exists_inlined_iff, rulesOf_map_rule, rulesOf_map_rule] at hsame
  have hsorted : checkRules (sortedSizeRules (.ruleRef "#drink")) [0, 1, 2] [] = .ok () :=
    hsame.1 checkRules_sizeRules
  rw [checkRules_sortedSizeRules] at hsorted
  cases hsorted

end SpeechGrammar
