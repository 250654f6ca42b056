import SpeechGrammar.Pattern.Match
import SpeechGrammar.Proofs.Grammar.Edit

set_option autoImplicit false

/-!
# Embedding is conservative

Rules that are put behind those of a grammar change nothing for the grammar: its references find
their rules before any other. The other grammar may lose some of its rules to rules with the same
ids, but no circle arises (`checkRules_append`): when its rules are checked, those of the grammar
are done, so a walk through its rules never comes back from one of them.
-/

namespace SpeechGrammar

variable {rules others : List Rule}

/-! ## Rules behind other rules -/

theorem resolve_append_left {uri : String} {target : Rule} (h : resolve rules uri = .ok target) :
    resolve (rules ++ others) uri = .ok target := by
  obtain ⟨id, huri, hid⟩ := resolve_eq_ok.1 h
  exact resolve_eq_ok.2 ⟨id, huri, by rw [findRule?_append, hid, Option.some_or]⟩

theorem resolvesAlike_append_left (done : List String) :
    ResolvesAlike (rules ++ others) rules done :=
  fun _ found hfound => ⟨found, resolve_append_left hfound, rfl, fun _ => rfl⟩

/-- The rules behind others are still found, except where one of those has the id. -/
theorem resolvesAlike_append_right {done : List String} (hdone : ∀ rule ∈ rules, rule.id ∈ done) :
    ResolvesAlike (rules ++ others) others done := by
  intro uri found hfound
  obtain ⟨id, huri, hid⟩ := resolve_eq_ok.1 hfound
  cases hrule : findRule? rules id with
  | none =>
      have htarget : findRule? (rules ++ others) id = some found := by
        rw [findRule?_append, hrule, Option.none_or, hid]
      exact ⟨found, resolve_eq_ok.2 ⟨id, huri, htarget⟩, rfl, fun _ => rfl⟩
  | some rule =>
      have htarget : findRule? (rules ++ others) id = some rule := by
        rw [findRule?_append, hrule, Option.some_or]
      refine ⟨rule, resolve_eq_ok.2 ⟨id, huri, htarget⟩, ?_, fun hnew => ?_⟩
      · rw [id_of_findRule? hrule, id_of_findRule? hid]
      · exact absurd (hdone rule (mem_of_findRule? hrule)) hnew

/-- An expansion stays the same when rules are put behind the others. -/
theorem Expands.append_rules {ns ms : List Node} (h : Expands rules ns ms) :
    Expands (rules ++ others) ns ms := by
  induction h with
  | nil => exact .nil
  | leaf hn _ ih => exact .leaf hn ih
  | ruleRef huri _ _ ihbody ih => exact .ruleRef (resolve_append_left huri) ihbody ih
  | element _ _ ihchildren ih => exact .element ihchildren ih

/-! ## Checking both -/

theorem isFirst_append {position : Nat} (h : isFirst rules position = true) :
    isFirst (rules ++ others) position = true := by
  rw [isFirst] at h ⊢
  cases hrule : rules[position]? with
  | none => simp [hrule] at h
  | some rule =>
      have hget : (rules ++ others)[position]? = some rule := by
        rw [List.getElem?_append_left (List.getElem?_eq_some_iff.1 hrule).1, hrule]
      rw [hrule] at h
      have hindex : rules.findIdx? (·.id == rule.id) = some position := by simpa using h
      simp [hget, List.findIdx?_append, hindex]

/-- Two lists of rules that can be checked by themselves can be checked one behind the other. -/
theorem checkRules_append (hids : (rules.map Rule.id).Nodup) (hresolves : Resolves rules)
    (hacyclic : Acyclic rules) (hids' : (others.map Rule.id).Nodup) (hresolves' : Resolves others)
    (hacyclic' : Acyclic others) :
    checkRules (rules ++ others) (List.range (rules ++ others).length) [] = .ok () := by
  have hget : ∀ position < rules.length, (rules ++ others)[position]? = rules[position]? :=
    fun position hlt => List.getElem?_append_left hlt
  have hfront : checkRules (rules ++ others) (List.range rules.length) [] = .ok () := by
    refine checkRules_eq_ok_of_base hresolves hacyclic
      (fun rule hrule => hacyclic.not_leadsBack (findRule?_of_nodup hids hrule)) ?_
      (resolvesAlike_append_left [])
    intro position hposition rule hrule
    rw [hget position (List.mem_range.1 hposition)] at hrule
    exact List.mem_of_getElem? hrule
  obtain ⟨done, -, -, hlater, hall⟩ := exists_of_checkRules hfront .nil
  -- What is done now includes every id of the rules in front.
  have hdone : ∀ rule ∈ rules, rule.id ∈ done := by
    intro rule hrule
    obtain ⟨position, hposition, hfirst⟩ := exists_isFirst (findRule?_of_nodup hids hrule)
    have hlt : position < rules.length := (List.getElem?_eq_some_iff.1 hposition).1
    rw [← hget position hlt] at hposition
    exact (hall position (List.mem_range.2 hlt) rule hposition).2 (isFirst_append hfirst)
  rw [List.length_append, List.range_add, hlater]
  refine checkRules_eq_ok_of_base hresolves' hacyclic'
    (fun rule hrule => hacyclic'.not_leadsBack (findRule?_of_nodup hids' hrule)) ?_
    (resolvesAlike_append_right hdone)
  intro position hposition rule hrule
  obtain ⟨index, -, rfl⟩ := List.mem_map.1 hposition
  rw [List.getElem?_append_right (Nat.le_add_right ..), Nat.add_sub_cancel_left] at hrule
  exact List.mem_of_getElem? hrule

/-! ## Embedding and inlining -/

/-- Inlining keeps the attributes of a grammar, and leaves the root rule with its expansion. -/
theorem rules_of_inlined {g h : Grammar} {root : Rule} (hinline : g.inlined = .ok h)
    (hroot : g.rootRule? = some root) :
    ∃ body, Expands g.rules root.body body ∧ h.rules = [{ root with body := body }] ∧
      h.rootRule? = some { root with body := body } ∧ h.mode = g.mode := by
  obtain ⟨children, hchildren, rfl⟩ := map_eq_ok.1 hinline
  obtain ⟨body, hbody, hrules⟩ := (inlined_of_inlineChildren hchildren).rulesOf_eq hroot
  obtain ⟨id, hid, hrule⟩ := Option.bind_eq_some_iff.1 hroot
  rw [← id_of_findRule? hrule] at hid
  exact ⟨body, hbody, hrules, rootRule?_of_rules_eq hid hrules, rfl⟩

theorem sound_of_inlined {g h : Grammar} (hinline : g.inlined = .ok h) :
    Resolves g.rules ∧ Acyclic g.rules := by
  obtain ⟨children, hchildren, -⟩ := map_eq_ok.1 hinline
  obtain ⟨hresolves, hacyclic, -⟩ := sound_of_checkRules (checkRules_of_inlineChildren hchildren)
  exact ⟨hresolves, hacyclic⟩

/-- Embedding is conservative. If two grammars with the same mode can be inlined, so can the first
with the second embedded in it, whatever ids they share. The children of the second stand behind
those of the first, the root rule that is left is the one of the first grammar alone, and so is the
pattern. -/
theorem inlined_embed {g other inlined otherInlined : Grammar} {root : Rule}
    (hmode : other.mode = g.mode) (hids : (g.rules.map Rule.id).Nodup)
    (hids' : (other.rules.map Rule.id).Nodup) (hadmitted : other.IsAdmitted)
    (hinlined : g.inlined = .ok inlined) (hinlined' : other.inlined = .ok otherInlined)
    (hroot : g.rootRule? = some root) :
    ∃ both result rule, g.embed other = .ok both ∧
      both = { g with children := g.children ++ other.children } ∧ both.inlined = .ok result ∧
      inlined.rules = [rule] ∧ inlined.rootRule? = some rule ∧
      result.rules = [rule] ∧ result.rootRule? = some rule ∧
      result.toPattern = inlined.toPattern ∧
      ∀ options interpreter,
        result.compile options interpreter = inlined.compile options interpreter := by
  obtain ⟨hresolves, hacyclic⟩ := sound_of_inlined hinlined
  obtain ⟨hresolves', hacyclic'⟩ := sound_of_inlined hinlined'
  obtain ⟨body, hbody, hrules, hrule, hsame⟩ := rules_of_inlined hinlined hroot
  -- Inlining the combined grammar succeeds, as a check of its rules does.
  let both : Grammar := { g with children := g.children ++ other.children }
  have hboth : both.rules = g.rules ++ other.rules := rulesOf_append ..
  have hcheck : checkRules both.rules (List.range both.rules.length) [] = .ok () := by
    rw [hboth]
    exact checkRules_append hids hresolves hacyclic hids' hresolves' hacyclic'
  obtain ⟨children, hchildren, -⟩ := exists_inlined hcheck g.root
  have hresult : both.inlined = .ok { both with children := children } :=
    map_eq_ok.2 ⟨children, hchildren, rfl⟩
  -- Its root rule is that of the first grammar, with the same expansion.
  have hroot' : both.rootRule? = some root := by
    obtain ⟨id, hid, hfound⟩ := Option.bind_eq_some_iff.1 hroot
    refine Option.bind_eq_some_iff.2 ⟨id, hid, ?_⟩
    rw [Grammar.rule?, hboth, findRule?_append]
    exact Option.or_eq_some_iff.2 (.inl hfound)
  obtain ⟨body', hbody', hrules', hrule', hsame'⟩ := rules_of_inlined hresult hroot'
  rw [hboth] at hbody'
  obtain rfl := hbody'.unique hbody.append_rules
  refine ⟨both, _, _, Grammar.embed_eq_ok hmode hadmitted, rfl, hresult, hrules, hrule, hrules',
    hrule', ?_, fun options interpreter => ?_⟩
  · rw [Grammar.toPattern, Grammar.toPattern, hrule, hrule', hsame, hsame']
  · rw [Grammar.compile, Grammar.compile, hrule, hrule', hsame, hsame']

/-- The greeting of `greetingChildren`, as a grammar. -/
def greetingGrammar : Grammar := { root := some "main", children := greetingChildren }

/-- A name that has the id of one in the greeting and leads elsewhere. -/
def titleRules : List Rule :=
  [{ id := "name", body := [.ruleRef "#title", .token "ann"] },
    { id := "title", body := [.token "doctor"] }]

/-- The rules of the other name, as a grammar without a root. -/
def titleGrammar : Grammar := { children := titleRules.map Child.rule }

theorem checkRules_titleRules :
    checkRules titleRules (List.range titleRules.length) [] = .ok () := by
  have hpositions : List.range titleRules.length = [0, 1] := rfl
  have hname : titleRules[0]? =
      some { id := "name", body := [.ruleRef "#title", .token "ann"] } := rfl
  have htitle : titleRules[1]? = some { id := "title", body := [.token "doctor"] } := rfl
  have hresolve : resolve titleRules "#title" =
      .ok { id := "title", body := [.token "doctor"] } := rfl
  have hreferences : references [.ruleRef "#title", .token "ann"] = ["#title"] := rfl
  have hnone : references [.token "doctor"] = [] := rfl
  simp [hpositions, checkRules, checkRule, hname, htitle, hreferences, hnone, checkReferences_nil,
    checkReferences_cons, hresolve]

theorem inlined_embed_greetingGrammar :
    ∃ inlined both result rule, titleGrammar.mode = greetingGrammar.mode ∧
      (greetingGrammar.rules.map Rule.id).Nodup ∧ (titleGrammar.rules.map Rule.id).Nodup ∧
      titleGrammar.IsAdmitted ∧ greetingGrammar.inlined = .ok inlined ∧
      (∃ titleInlined, titleGrammar.inlined = .ok titleInlined) ∧
      greetingGrammar.embed titleGrammar = .ok both ∧
      both.children = greetingChildren ++ titleRules.map Child.rule ∧ both.inlined = .ok result ∧
      inlined.rootRule? = some rule ∧ result.rootRule? = some rule := by
  have hids : (greetingGrammar.rules.map Rule.id).Nodup := by decide
  have hids' : (titleGrammar.rules.map Rule.id).Nodup := by decide
  have hadmitted : titleGrammar.IsAdmitted := by
    simp [Grammar.IsAdmitted, titleGrammar, Grammar.admits]
  have hinlined : greetingGrammar.inlined = .ok _ :=
    map_eq_ok.2 ⟨_, inlineChildren_greetingChildren, rfl⟩
  have hmode : titleGrammar.mode = greetingGrammar.mode := rfl
  have hcheck : checkRules (rulesOf titleGrammar.children)
      (List.range (rulesOf titleGrammar.children).length) [] = .ok () := checkRules_titleRules
  obtain ⟨children, hchildren, -⟩ := exists_inlined hcheck none
  have hinlined' : titleGrammar.inlined = .ok { titleGrammar with children := children } :=
    map_eq_ok.2 ⟨children, hchildren, rfl⟩
  have hroot : greetingGrammar.rootRule? = some (greetingGrammar.rules[1]) := rfl
  obtain ⟨both, result, rule, hembed, hboth, hresult, -, hrule, -, hrule', -, -⟩ :=
    inlined_embed hmode hids hids' hadmitted hinlined hinlined' hroot
  have hbehind : both.children = greetingChildren ++ titleRules.map Child.rule := by
    rw [hboth]
    rfl
  exact ⟨_, both, result, rule, hmode, hids, hids', hadmitted, hinlined, ⟨_, hinlined'⟩, hembed,
    hbehind, hresult, hrule, hrule'⟩

end SpeechGrammar
