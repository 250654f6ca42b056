import SpeechGrammar.Proofs.Grammar.Inline

set_option autoImplicit false

/-!
# Errors of inlining

An error of inlining is a witness of what is wrong (`inlineChildren_error`): a reference to no rule
stands in one of the rules, and a chain of ids can be followed from rule to rule until it comes back
to itself. The chain is the path of the walk that fails, so what a walk keeps is that its path is a
`Trail`, along references, with no id on it twice.
-/

namespace SpeechGrammar

variable {rules : List Rule}

/-! ## References to ids -/

/-- The rule has a reference to the id in its body, at some depth. -/
def Rule.RefersTo (rule : Rule) (id : String) : Prop :=
  id ≠ "" ∧ .ruleRef ("#" ++ id) ∈ walkAll rule.body

theorem mem_references {uri : String} {nodes : List Node} :
    uri ∈ references nodes ↔ .ruleRef uri ∈ walkAll nodes := by
  rw [references, List.mem_filterMap]
  constructor
  · rintro ⟨n, hn, huri⟩
    cases n with
    | ruleRef other =>
        cases huri
        exact hn
    | literal _ | token _ | tag _ | element _ _ => cases huri
  · intro h
    exact ⟨_, h, rfl⟩

/-- A uri has a target if it is a hash sign with an id behind it. -/
theorem targetId?_eq_some_iff {uri id : String} :
    targetId? uri = some id ↔ id ≠ "" ∧ uri = "#" ++ id := by
  rw [targetId?]
  constructor
  · intro h
    split at h
    · rename_i c cs huri
      cases h
      exact ⟨by simp, String.toList_inj.1 (by simpa using huri)⟩
    · cases h
  · rintro ⟨hne, rfl⟩
    obtain ⟨c, cs, hid⟩ := List.exists_cons_of_ne_nil (l := id.toList) (by simpa using hne)
    have huri : ("#" ++ id).toList = '#' :: c :: cs := by
      rw [String.toList_append, hid]
      rfl
    rw [huri]
    exact congrArg some (by rw [← hid, String.ofList_toList])

theorem refersTo_of_resolve {rule target : Rule} {uri : String} (huri : uri ∈ references rule.body)
    (htarget : resolve rules uri = .ok target) : rule.RefersTo target.id := by
  obtain ⟨id, hid, hfind⟩ := resolve_eq_ok.1 htarget
  obtain ⟨hne, rfl⟩ := targetId?_eq_some_iff.1 hid
  rw [id_of_findRule? hfind]
  exact ⟨hne, mem_references.1 huri⟩

/-- Resolving fails only where no rule has the id that the uri names. -/
theorem resolve_eq_error {uri : String} {e : Error} (h : resolve rules uri = .error e) :
    e = .unresolvedReference uri ∧ ∀ rule ∈ rules, rule.id ≠ "" → uri ≠ "#" ++ rule.id := by
  rw [resolve] at h
  split at h
  · rename_i hnone
    cases h
    refine ⟨rfl, fun rule hrule hne huri => ?_⟩
    rw [targetId?_eq_some_iff.2 ⟨hne, huri⟩, Option.bind_some, findRule?,
      List.find?_eq_none] at hnone
    exact hnone rule hrule (by simp)
  · cases h

/-! ## Trails -/

/-- The first rule with the one id refers to the other. -/
def LeadsOn (rules : List Rule) (a b : String) : Prop :=
  ∃ rule, findRule? rules a = some rule ∧ rule.RefersTo b

/-- The ids that a walk along references has passed: those of the rule where it starts, of the rule
that it has come to, and of all between. -/
inductive Trail (rules : List Rule) (start : Rule) : List String → Rule → Prop
  | start : Trail rules start [start.id] start
  | step {path : List String} {rule target : Rule} {uri : String} (h : Trail rules start path rule)
      (huri : uri ∈ references rule.body) (htarget : resolve rules uri = .ok target) :
      Trail rules start (path ++ [target.id]) target

theorem Trail.mem {start rule : Rule} {path : List String} (h : Trail rules start path rule)
    (hstart : start ∈ rules) : rule ∈ rules := by
  cases h with
  | start => exact hstart
  | step _ _ htarget => exact mem_of_resolve htarget

/-- Behind the first id of a trail each id leads on to the next. Only the first one may be that of a
later rule, which references do not find. -/
theorem Trail.exists_eq_cons {start rule : Rule} {path : List String}
    (h : Trail rules start path rule) :
    ∃ ids, path = start.id :: ids ∧ (∀ id ∈ ids.head?, start.RefersTo id) ∧
      ids.IsChain (LeadsOn rules) ∧
      (ids = [] ∧ rule = start ∨
        ids.getLast? = some rule.id ∧ findRule? rules rule.id = some rule) := by
  induction h with
  | start => exact ⟨[], rfl, by simp, .nil, .inl ⟨rfl, rfl⟩⟩
  | @step path rule target uri _ huri htarget ih =>
      obtain ⟨ids, rfl, hfirst, hchain, hrule⟩ := ih
      have hrefers : rule.RefersTo target.id := refersTo_of_resolve huri htarget
      have hfind : findRule? rules target.id = some target := findRule?_of_resolve htarget
      refine ⟨ids ++ [target.id], rfl, ?_, ?_, .inr ⟨List.getLast?_concat, hfind⟩⟩
      · rcases hrule with ⟨rfl, rfl⟩ | ⟨hlast, -⟩
        · simpa using hrefers
        · have hne : ids ≠ [] := by
            rintro rfl
            cases hlast
          rwa [List.head?_append_of_ne_nil _ hne]
      · refine List.isChain_append.2 ⟨hchain, .singleton _, ?_⟩
        rcases hrule with ⟨rfl, -⟩ | ⟨hlast, hrule⟩
        · simp
        · rw [hlast]
          rintro _ ⟨⟩ _ ⟨⟩
          exact ⟨rule, hrule, hrefers⟩

/-- A chain of ids that closes: no id but the last stands in it twice, and the last has come up
before. Some rule with the first id refers to the second, and from there on the first rule with each
id refers to the next. -/
structure IsCircle (rules : List Rule) (chain : List String) : Prop where
  nodup : chain.dropLast.Nodup
  closes : ∃ last ∈ chain.getLast?, last ∈ chain.dropLast
  first : ∃ rule ∈ rules, ∃ second rest, chain = rule.id :: second :: rest ∧ rule.RefersTo second
  later : chain.tail.IsChain (LeadsOn rules)

/-- One more step of a trail, to an id on it, closes a circle. -/
theorem Trail.isCircle {start rule target : Rule} {path : List String}
    (h : Trail rules start (path ++ [target.id]) rule) (hstart : start ∈ rules)
    (hnodup : path.Nodup) (hmem : target.id ∈ path) : IsCircle rules (path ++ [target.id]) := by
  obtain ⟨ids, hpath, hfirst, hchain, -⟩ := h.exists_eq_cons
  refine ⟨by rwa [List.dropLast_concat], ⟨target.id, ?_, by rwa [List.dropLast_concat]⟩, ?_, ?_⟩
  · exact List.getLast?_concat
  · cases ids with
    | nil =>
        -- A path with an id on it is not empty, so the chain has two ids at least.
        have hlength := congrArg List.length hpath
        have hpos := List.length_pos_of_mem hmem
        rw [List.length_append, List.length_singleton, List.length_singleton] at hlength
        omega
    | cons second rest => exact ⟨start, hstart, second, rest, hpath, hfirst second rfl⟩
  · rw [hpath]
    exact hchain

/-! ## Errors -/

/-- The error is about these rules: a circle of references, or a reference that stands in a rule and
names none. -/
def Error.IsWitness (rules : List Rule) : Error → Prop
  | .cyclicReference chain => IsCircle rules chain
  | .unresolvedReference uri =>
      (∃ rule ∈ rules, .ruleRef uri ∈ walkAll rule.body) ∧
        ∀ rule ∈ rules, rule.id ≠ "" → uri ≠ "#" ++ rule.id
  | _ => False

/-- A walk that fails, fails with a witness. -/
theorem Walk.isWitness {start rule : Rule} {path uris done after : List String}
    {outcome : Except Error Unit} {e : Error} (h : Walk rules path uris done outcome after)
    (hstart : start ∈ rules) (htrail : Trail rules start path rule) (hnodup : path.Nodup)
    (huris : uris ⊆ references rule.body) (herror : outcome = .error e) : e.IsWitness rules := by
  -- The path and the rule at its end change together when the walk steps into a target.
  induction h generalizing rule with
  | nil => cases herror
  | unresolved hresolve =>
      cases herror
      obtain ⟨rfl, hnone⟩ := resolve_eq_error hresolve
      have huri := huris (List.mem_cons_self ..)
      exact ⟨⟨rule, htrail.mem hstart, mem_references.1 huri⟩, hnone⟩
  | cyclic htarget hmem =>
      cases herror
      have hstep := htrail.step (huris (List.mem_cons_self ..)) htarget
      exact hstep.isCircle hstart hnodup hmem
  | skipped _ _ _ _ ih => exact ih htrail hnodup (List.cons_subset.1 huris).2 herror
  | @failed path _ _ _ _ target _ htarget hnew _ _ ih =>
      have hstep := htrail.step (huris (List.mem_cons_self ..)) htarget
      have hnodup' : (path ++ [target.id]).Nodup := by
        rw [← List.concat_eq_append]
        exact hnodup.concat hnew
      exact ih hstep hnodup' (List.Subset.refl _) herror
  | passed _ _ _ _ _ _ ih => exact ih htrail hnodup (List.cons_subset.1 huris).2 herror

/-- A check of rules that fails, fails in the check of one of them. -/
theorem exists_checkRule_of_error {positions : List Nat} {checked : List String} {e : Error}
    (h : checkRules rules positions checked = .error e) :
    ∃ position before, (checkRule rules position before).1 = .error e := by
  induction positions generalizing checked with
  | nil => cases h
  | cons position positions ih =>
      rw [checkRules] at h
      rcases hcheck : checkRule rules position checked with ⟨_ | _, after⟩
      · rw [hcheck] at h
        cases h
        exact ⟨position, checked, by rw [hcheck]⟩
      · rw [hcheck] at h
        exact ih h

theorem isWitness_of_checkRule {position : Nat} {checked : List String} {e : Error}
    (h : (checkRule rules position checked).1 = .error e) : e.IsWitness rules := by
  cases hrule : rules[position]? with
  | none =>
      rw [checkRule, hrule] at h
      cases h
  | some rule =>
      rcases checkRule_cases hrule checked with ⟨e', after, hwalk, hcheck⟩ | ⟨after, -, hcheck⟩
      · rw [hcheck] at h
        cases h
        exact hwalk.isWitness (List.mem_of_getElem? hrule) .start (List.nodup_singleton _)
          (List.Subset.refl _) rfl
      · rw [hcheck] at h
        cases h

/-- Inlining fails where the check of all rules does: the expansion that follows it succeeds. -/
theorem inlineChildren_eq_error_iff {root? : Option String} {children : List Child} {e : Error} :
    inlineChildren root? children = .error e ↔
      checkRules (rulesOf children) (List.range (rulesOf children).length) [] = .error e := by
  cases hcheck : checkRules (rulesOf children) (List.range (rulesOf children).length) [] with
  | error e' => simp [inlineChildren, hcheck]
  | ok _ =>
      obtain ⟨inlined, hinlined, -⟩ := exists_inlined hcheck root?
      simp [hinlined]

/-- Inlining fails with a circle of references or with a reference to no rule, and in no other
way. -/
theorem inlineChildren_error {root? : Option String} {children : List Child} {e : Error}
    (h : inlineChildren root? children = .error e) : e.IsWitness (rulesOf children) := by
  obtain ⟨_, _, hcheck⟩ := exists_checkRule_of_error (inlineChildren_eq_error_iff.1 h)
  exact isWitness_of_checkRule hcheck

/-- A menu of drinks, with a circle that does not go through the menu. -/
def circularMenu : List Rule :=
  [{ id := "menu", body := [.element .oneOf [.ruleRef "#drink"]] },
    { id := "drink", body := [.ruleRef "#size"] }, { id := "size", body := [.ruleRef "#drink"] }]

theorem checkRules_circularMenu : checkRules circularMenu [0, 1, 2] [] =
    .error (.cyclicReference ["menu", "drink", "size", "drink"]) := by
  have hmenu : circularMenu[0]? =
      some { id := "menu", body := [.element .oneOf [.ruleRef "#drink"]] } := rfl
  have hdrink : resolve circularMenu "#drink" =
      .ok { id := "drink", body := [.ruleRef "#size"] } := rfl
  have hsize : resolve circularMenu "#size" = .ok { id := "size", body := [.ruleRef "#drink"] } :=
    rfl
  have huris : references [.element .oneOf [.ruleRef "#drink"]] = ["#drink"] := rfl
  simp [checkRules, checkRule, hmenu, huris, references_ruleRef_cons, checkReferences_cons, hdrink,
    hsize]

theorem inlineChildren_circularMenu : inlineChildren none (circularMenu.map Child.rule) =
    .error (.cyclicReference ["menu", "drink", "size", "drink"]) :=
  inlineChildren_eq_error_iff.2 checkRules_circularMenu

/-- A menu with a reference that has no hash sign in front. -/
def bareMenu : List Rule :=
  [{ id := "drink", body := [.token "water"] },
    { id := "menu", body := [.ruleRef "#drink", .ruleRef "drink"] }]

theorem checkRules_bareMenu :
    checkRules bareMenu [0, 1] [] = .error (.unresolvedReference "drink") := by
  have hfirst : bareMenu[0]? = some { id := "drink", body := [.token "water"] } := rfl
  have hsecond : bareMenu[1]? =
      some { id := "menu", body := [.ruleRef "#drink", .ruleRef "drink"] } := rfl
  have hdrink : resolve bareMenu "#drink" = .ok { id := "drink", body := [.token "water"] } := rfl
  have hbare : resolve bareMenu "drink" = .error (.unresolvedReference "drink") := rfl
  have huris : references [.token "water"] = [] := rfl
  have hisFirst : isFirst bareMenu 0 = true := rfl
  simp [checkRules, checkRule, hfirst, hsecond, huris, references_ruleRef_cons,
    checkReferences_nil, checkReferences_cons, hdrink, hbare, hisFirst]

theorem inlineChildren_bareMenu : inlineChildren (some "drink") (bareMenu.map Child.rule) =
    .error (.unresolvedReference "drink") :=
  inlineChildren_eq_error_iff.2 checkRules_bareMenu

theorem inlineChildren_error_menus :
    (inlineChildren none (circularMenu.map Child.rule) =
          .error (.cyclicReference ["menu", "drink", "size", "drink"]) ∧
        IsCircle circularMenu ["menu", "drink", "size", "drink"]) ∧
      inlineChildren (some "drink") (bareMenu.map Child.rule) =
          .error (.unresolvedReference "drink") ∧
        (Error.unresolvedReference "drink").IsWitness bareMenu :=
  ⟨⟨inlineChildren_circularMenu, inlineChildren_error inlineChildren_circularMenu⟩,
    inlineChildren_bareMenu, inlineChildren_error inlineChildren_bareMenu⟩

end SpeechGrammar
