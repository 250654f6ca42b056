import SpeechGrammar.Proofs.Grammar.Expansion

set_option autoImplicit false

/-!
# Checking and expanding

The check of a rule remembers the rules that are done and does not walk them again. It is as good
as expanding the rule: both succeed, or fail with the same error, whatever has been checked
before. The invariant is `Settled`: each rule that is done refers only to rules that were done
before it. A walk keeps it (`Walk.settled`), and with it has the outcome of expanding
(`Walk.outcome_eq`).
-/

namespace SpeechGrammar

variable {rules : List Rule}

/-! ## Rules that are done -/

/-- Everything that the nodes refer to is the id of a rule in `done`. -/
def RefersInto (rules : List Rule) (done : List String) (uris : List String) : Prop :=
  ∀ uri ∈ uris, ∃ target, resolve rules uri = .ok target ∧ target.id ∈ done

theorem RefersInto.mono {done done' uris : List String} (h : RefersInto rules done uris)
    (hsub : done ⊆ done') : RefersInto rules done' uris := by
  intro uri huri
  obtain ⟨target, htarget, hdone⟩ := h uri huri
  exact ⟨target, htarget, hsub hdone⟩

/-- Ids, the latest first, such that the first rule with each refers only to rules with ids
behind it. -/
inductive Settled (rules : List Rule) : List String → Prop
  | nil : Settled rules []
  | cons {rule : Rule} {done : List String} (hrule : findRule? rules rule.id = some rule)
      (hrefers : RefersInto rules done (references rule.body)) (hdone : Settled rules done) :
      Settled rules (rule.id :: done)

/-- A settled rule refers to settled rules only. -/
theorem Settled.refersInto {done : List String} (h : Settled rules done) {rule : Rule}
    (hrule : findRule? rules rule.id = some rule) (hmem : rule.id ∈ done) :
    RefersInto rules done (references rule.body) := by
  induction h with
  | nil => cases hmem
  | @cons first done hfirst hrefers _ ih =>
      rcases List.mem_cons.1 hmem with hid | hmem
      · rw [hid, hfirst] at hrule
        cases hrule
        exact hrefers.mono (List.subset_cons_self _ _)
      · exact (ih hmem).mono (List.subset_cons_self _ _)

theorem avoids_append {path done : List String} {id : String} (hpath : ∀ x ∈ path, x ∉ done)
    (hid : id ∉ done) : ∀ x ∈ path ++ [id], x ∉ done := by
  intro x hx
  rcases List.mem_append.1 hx with hx | hx
  · exact hpath x hx
  · rwa [List.mem_singleton.1 hx]

/-- A settled rule expands below every path that avoids the settled rules. -/
theorem Settled.exists_expandNodes {done : List String} (h : Settled rules done) {rule : Rule}
    (hrule : findRule? rules rule.id = some rule) (hmem : rule.id ∈ done) (path : List String)
    (hpath : ∀ id ∈ path, id ∉ done) :
    ∃ body, expandNodes rules (path ++ [rule.id]) rule.body = .ok body := by
  -- The targets of a rule are settled behind it, so the induction is on what is done; the path
  -- grows along with it.
  induction h generalizing rule path with
  | nil => cases hmem
  | @cons first done hfirst hrefers _ ih =>
      have hbehind : ∀ id ∈ path, id ∉ done := fun id hid hdone =>
        hpath id hid (List.mem_cons_of_mem _ hdone)
      by_cases hin : rule.id ∈ done
      · exact ih hrule hin path hbehind
      · -- The rule is settled here, for the first time, so none of its targets is itself.
        have hid : rule.id = first.id := (List.mem_cons.1 hmem).resolve_right hin
        have hsame : rule = first := by
          rw [hid, hfirst] at hrule
          cases hrule
          rfl
        have hpath' := avoids_append hbehind hin
        rw [exists_expandNodes_iff]
        intro uri huri
        rw [hsame] at huri
        obtain ⟨target, htarget, hdone⟩ := hrefers uri huri
        obtain ⟨body, hbody⟩ := ih (findRule?_of_resolve htarget) hdone _ hpath'
        have hnot : target.id ∉ path ++ [rule.id] := fun hid => hpath' _ hid hdone
        exact ⟨body, expandReference_eq_ok.2 ⟨target, htarget, hnot, hbody⟩⟩

/-! ## One walk -/

/-- Below a path, a walk over references goes from the ids that are done to an outcome and the
ids that are done afterwards. -/
inductive Walk (rules : List Rule) :
    List String → List String → List String → Except Error Unit → List String → Prop
  | nil {path done : List String} : Walk rules path [] done (.ok ()) done
  | unresolved {path uris done : List String} {uri : String} {e : Error}
      (herror : resolve rules uri = .error e) : Walk rules path (uri :: uris) done (.error e) done
  | cyclic {path uris done : List String} {uri : String} {target : Rule}
      (htarget : resolve rules uri = .ok target) (hpath : target.id ∈ path) :
      Walk rules path (uri :: uris) done (.error (.cyclicReference (path ++ [target.id]))) done
  | skipped {path uris done after : List String} {uri : String} {target : Rule}
      {outcome : Except Error Unit} (htarget : resolve rules uri = .ok target)
      (hpath : target.id ∉ path) (hdone : target.id ∈ done)
      (hrest : Walk rules path uris done outcome after) :
      Walk rules path (uri :: uris) done outcome after
  | failed {path uris done after : List String} {uri : String} {target : Rule} {e : Error}
      (htarget : resolve rules uri = .ok target) (hpath : target.id ∉ path)
      (hnew : target.id ∉ done)
      (hbelow : Walk rules (path ++ [target.id]) (references target.body) done (.error e) after) :
      Walk rules path (uri :: uris) done (.error e) after
  | passed {path uris done between after : List String} {uri : String} {target : Rule}
      {outcome : Except Error Unit} (htarget : resolve rules uri = .ok target)
      (hpath : target.id ∉ path) (hnew : target.id ∉ done)
      (hbelow : Walk rules (path ++ [target.id]) (references target.body) done (.ok ()) between)
      (hrest : Walk rules path uris (target.id :: between) outcome after) :
      Walk rules path (uri :: uris) done outcome after

theorem checkReferences_nil (path checked : List String) :
    checkReferences rules path [] checked = (.ok (), checked) := by
  rw [checkReferences]

theorem checkReferences_cons (path : List String) (uri : String) (uris checked : List String) :
    checkReferences rules path (uri :: uris) checked =
      match resolve rules uri with
      | .error e => (.error e, checked)
      | .ok target =>
          if target.id ∈ path then (.error (.cyclicReference (path ++ [target.id])), checked)
          else if target.id ∈ checked then checkReferences rules path uris checked
          else
            match checkReferences rules (path ++ [target.id]) (references target.body) checked with
            | (.error e, checked) => (.error e, checked)
            | (.ok (), checked) => checkReferences rules path uris (target.id :: checked) := by
  rw [checkReferences]
  cases resolve rules uri with
  | error e => rfl
  | ok target => rfl

theorem walk_checkReferences (rules : List Rule) (path uris checked : List String) :
    Walk rules path uris checked (checkReferences rules path uris checked).1
      (checkReferences rules path uris checked).2 := by
  induction path, uris, checked using checkReferences.induct rules with
  | case1 path done =>
      rw [checkReferences_nil]
      exact .nil
  | case2 path uri uris done e herror =>
      rw [checkReferences_cons, herror]
      exact .unresolved herror
  | case3 path uri uris done target htarget hpath =>
      simp only [checkReferences_cons, htarget, if_pos hpath]
      exact .cyclic htarget hpath
  | case4 path uri uris done target htarget hpath hdone ih =>
      simp only [checkReferences_cons, htarget, if_neg hpath, if_pos hdone]
      exact .skipped htarget hpath hdone ih
  | case5 path uri uris done target htarget hpath hnew e after hbelow ih =>
      rw [hbelow] at ih
      simp only [checkReferences_cons, htarget, if_neg hpath, if_neg hnew, hbelow]
      exact .failed htarget hpath hnew ih
  | case6 path uri uris done target htarget hpath hnew between hbelow ihbelow ihrest =>
      rw [hbelow] at ihbelow
      simp only [checkReferences_cons, htarget, if_neg hpath, if_neg hnew, hbelow]
      exact .passed htarget hpath hnew ihbelow ihrest

/-- There is one walk, and the check goes along it. -/
theorem Walk.checkReferences_eq {path uris done after : List String} {outcome : Except Error Unit}
    (h : Walk rules path uris done outcome after) :
    checkReferences rules path uris done = (outcome, after) := by
  induction h with
  | nil => exact checkReferences_nil ..
  | unresolved herror => rw [checkReferences_cons, herror]
  | cyclic htarget hpath => simp only [checkReferences_cons, htarget, if_pos hpath]
  | skipped htarget hpath hdone _ ih =>
      simp only [checkReferences_cons, htarget, if_neg hpath, if_pos hdone, ih]
  | failed htarget hpath hnew _ ih =>
      simp only [checkReferences_cons, htarget, if_neg hpath, if_neg hnew, ih]
  | passed htarget hpath hnew _ _ ihbelow ihrest =>
      simp only [checkReferences_cons, htarget, if_neg hpath, if_neg hnew, ihbelow, ihrest]

theorem Walk.append_failed {path uris done after : List String} {e : Error}
    (h : Walk rules path uris done (.error e) after) (uris' : List String) :
    Walk rules path (uris ++ uris') done (.error e) after := by
  generalize houtcome : (.error e : Except Error Unit) = outcome at h
  induction h with
  | nil => cases houtcome
  | unresolved herror => exact .unresolved herror
  | cyclic htarget hpath => exact .cyclic htarget hpath
  | skipped htarget hpath hdone _ ih => exact .skipped htarget hpath hdone (ih houtcome)
  | failed htarget hpath hnew hbelow _ => exact .failed htarget hpath hnew hbelow
  | passed htarget hpath hnew hbelow _ _ ih => exact .passed htarget hpath hnew hbelow (ih houtcome)

theorem Walk.append {path uris uris' done between after : List String}
    {outcome : Except Error Unit} (h : Walk rules path uris done (.ok ()) between)
    (h' : Walk rules path uris' between outcome after) :
    Walk rules path (uris ++ uris') done outcome after := by
  generalize hpassed : (.ok () : Except Error Unit) = passed at h
  induction h with
  | nil => exact h'
  | unresolved _ | cyclic _ _ | failed _ _ _ _ _ => cases hpassed
  | skipped htarget hpath hdone _ ih => exact .skipped htarget hpath hdone (ih h' hpassed)
  | passed htarget hpath hnew hbelow _ _ ih =>
      exact .passed htarget hpath hnew hbelow (ih h' hpassed)

/-- A walk adds ids that are not on its path in front of those that are done. -/
theorem Walk.extends {path uris done after : List String} {outcome : Except Error Unit}
    (h : Walk rules path uris done outcome after) :
    ∃ new, after = new ++ done ∧ ∀ id ∈ new, id ∉ path := by
  induction h with
  | nil | unresolved _ | cyclic _ _ => exact ⟨[], rfl, by simp⟩
  | skipped _ _ _ _ ih => exact ih
  | failed _ _ _ _ ih =>
      obtain ⟨new, rfl, hnew⟩ := ih
      exact ⟨new, rfl, fun id hid hpath => hnew id hid (List.mem_append_left _ hpath)⟩
  | @passed _ _ _ _ _ _ target _ _ hpath _ _ _ ihbelow ihrest =>
      obtain ⟨new, rfl, hnew⟩ := ihbelow
      obtain ⟨new', rfl, hnew'⟩ := ihrest
      refine ⟨new' ++ target.id :: new, by simp, ?_⟩
      intro id hid
      rcases List.mem_append.1 hid with hid | hid
      · exact hnew' id hid
      · rcases List.mem_cons.1 hid with rfl | hid
        · exact hpath
        · exact fun h => hnew id hid (List.mem_append_left _ h)

theorem Walk.subset {path uris done after : List String} {outcome : Except Error Unit}
    (h : Walk rules path uris done outcome after) : done ⊆ after := by
  obtain ⟨new, rfl, -⟩ := h.extends
  exact List.subset_append_right _ _

/-- After a walk without error, everything that it was to visit is done. -/
theorem Walk.refersInto {path uris done after : List String} {outcome : Except Error Unit}
    (h : Walk rules path uris done outcome after) (hok : outcome = .ok ()) :
    RefersInto rules after uris := by
  induction h with
  | nil =>
      intro uri huri
      cases huri
  | unresolved _ | cyclic _ _ | failed _ _ _ _ _ => cases hok
  | skipped htarget _ hdone hrest ih =>
      intro uri huri
      rcases List.mem_cons.1 huri with rfl | huri
      · exact ⟨_, htarget, hrest.subset hdone⟩
      · exact ih hok uri huri
  | passed htarget _ _ _ hrest _ ih =>
      intro uri huri
      rcases List.mem_cons.1 huri with rfl | huri
      · exact ⟨_, htarget, hrest.subset (List.mem_cons_self ..)⟩
      · exact ih hok uri huri

/-- A walk keeps the ids that are done settled, also if it fails. -/
theorem Walk.settled {path uris done after : List String} {outcome : Except Error Unit}
    (h : Walk rules path uris done outcome after) (hdone : Settled rules done) :
    Settled rules after := by
  induction h with
  | nil | unresolved _ | cyclic _ _ => exact hdone
  | skipped _ _ _ _ ih => exact ih hdone
  | failed _ _ _ _ ih => exact ih hdone
  | @passed _ _ _ between _ _ target _ htarget _ _ hbelow _ ihbelow ihrest =>
      have hrule : findRule? rules target.id = some target := findRule?_of_resolve htarget
      have hrefers : RefersInto rules between (references target.body) := hbelow.refersInto rfl
      exact ihrest (.cons hrule hrefers (ihbelow hdone))

/-- A walk below a path that avoids the ids that are done has the outcome of expanding. -/
theorem Walk.outcome_eq {path uris done after : List String} {outcome : Except Error Unit}
    (h : Walk rules path uris done outcome after) (hdone : Settled rules done)
    (hpath : ∀ id ∈ path, id ∉ done) :
    outcome = visitAll (expandReference rules path) uris := by
  -- The two hypotheses are kept from step to step: an id joins the path only if it is not done,
  -- and joins what is done only when it has left the path.
  induction h with
  | nil => rfl
  | unresolved herror =>
      rw [visitAll, expandReference, herror]
      rfl
  | cyclic htarget hcycle =>
      rw [visitAll, expandReference, htarget, Except.bind, if_pos hcycle]
      rfl
  | skipped htarget hnot hmem _ ih =>
      -- The target is not walked, but expanding it would succeed.
      obtain ⟨body, hbody⟩ := hdone.exists_expandNodes (findRule?_of_resolve htarget) hmem _ hpath
      have hreference := expandReference_eq_ok.2 ⟨_, htarget, hnot, hbody⟩
      rw [visitAll, hreference]
      show _ = visitAll (expandReference rules _) _
      exact ih hdone hpath
  | @failed path uris done after uri target e htarget hnot hnew _ ih =>
      have hexpand : expandNodes rules (path ++ [target.id]) target.body = .error e := by
        rw [← map_eq_error (f := fun _ => ()), expandNodes_outcome]
        exact (ih hdone (avoids_append hpath hnew)).symm
      rw [visitAll, expandReference_of_notMem htarget hnot, hexpand]
      rfl
  | @passed path uris done between after uri target outcome htarget hnot hnew hbelow hrest ihbelow
      ihrest =>
      have havoids := avoids_append hpath hnew
      obtain ⟨body, hexpand, -⟩ : ∃ body,
          expandNodes rules (path ++ [target.id]) target.body = .ok body ∧ () = () := by
        rw [← map_eq_ok, expandNodes_outcome]
        exact (ihbelow hdone havoids).symm
      rw [visitAll, expandReference_of_notMem htarget hnot, hexpand]
      show outcome = visitAll (expandReference rules path) uris
      refine ihrest ?_ ?_
      · have hrule : findRule? rules target.id = some target := findRule?_of_resolve htarget
        have hrefers : RefersInto rules between (references target.body) := hbelow.refersInto rfl
        exact .cons hrule hrefers (hbelow.settled hdone)
      · -- What was added below the target is not on the path to the target.
        obtain ⟨new, rfl, havoids'⟩ := hbelow.extends
        intro id hid hmem
        rcases List.mem_cons.1 hmem with rfl | hmem
        · exact hnot hid
        rcases List.mem_append.1 hmem with hmem | hmem
        · exact havoids' id hmem (List.mem_append_left _ hid)
        · exact hpath id hid hmem

theorem of_resolve_head {P : Rule → Prop} {uri : String} {uris : List String} {target : Rule}
    (h : ∀ uri' ∈ uri :: uris, ∃ target, resolve rules uri' = .ok target ∧ P target)
    (htarget : resolve rules uri = .ok target) : P target := by
  obtain ⟨target', htarget', hP⟩ := h uri (List.mem_cons_self ..)
  rw [htarget] at htarget'
  cases htarget'
  exact hP

/-- A walk that finds everything done has nothing to object to. -/
theorem Walk.outcome_eq_ok {path uris done after : List String} {outcome : Except Error Unit}
    (h : Walk rules path uris done outcome after)
    (hdone : ∀ uri ∈ uris, ∃ target, resolve rules uri = .ok target ∧ target.id ∉ path ∧
      target.id ∈ done) : outcome = .ok () := by
  induction h with
  | nil => rfl
  | @unresolved _ _ _ uri _ herror =>
      obtain ⟨_, htarget, -⟩ := hdone uri (List.mem_cons_self ..)
      rw [herror] at htarget
      cases htarget
  | cyclic htarget hpath => exact absurd hpath (of_resolve_head hdone htarget).1
  | skipped _ _ _ _ ih => exact ih fun uri huri => hdone uri (List.mem_cons_of_mem _ huri)
  | failed htarget _ hnew _ _ => exact absurd (of_resolve_head hdone htarget).2 hnew
  | passed htarget _ hnew _ _ _ _ => exact absurd (of_resolve_head hdone htarget).2 hnew

/-! ## A sequence of checks -/

theorem findRule?_of_isFirst {position : Nat} {rule : Rule} (hrule : rules[position]? = some rule)
    (hfirst : isFirst rules position = true) : findRule? rules rule.id = some rule := by
  rw [isFirst, hrule] at hfirst
  have hindex : rules.findIdx? (·.id == rule.id) = some position := by simpa using hfirst
  obtain ⟨hlt, hp, hbefore⟩ := List.findIdx?_eq_some_iff_getElem.1 hindex
  rw [List.getElem?_eq_getElem hlt] at hrule
  cases hrule
  exact List.find?_eq_some_iff_getElem.2 ⟨hp, position, hlt, rfl, by simpa using hbefore⟩

/-- What a check of a rule does: it walks below the rule and then counts the rule as done, if
it is the first with its id and the walk has not failed. -/
theorem checkRule_cases {position : Nat} {rule : Rule} (hrule : rules[position]? = some rule)
    (checked : List String) :
    (∃ e after, Walk rules [rule.id] (references rule.body) checked (.error e) after ∧
        checkRule rules position checked = (.error e, after)) ∨
      ∃ after, Walk rules [rule.id] (references rule.body) checked (.ok ()) after ∧
        checkRule rules position checked =
          (.ok (), if isFirst rules position = true then rule.id :: after else after) := by
  have hwalk := walk_checkReferences rules [rule.id] (references rule.body) checked
  rw [checkRule, hrule]
  dsimp only
  rcases hresult : checkReferences rules [rule.id] (references rule.body) checked with
    ⟨e | _, after⟩
  · rw [hresult] at hwalk
    exact .inl ⟨e, after, hwalk, rfl⟩
  · rw [hresult] at hwalk
    exact .inr ⟨after, hwalk, rfl⟩

/-- Checking a rule keeps the ids that are done settled. -/
theorem settled_checkRule {checked : List String} (h : Settled rules checked) (position : Nat) :
    Settled rules (checkRule rules position checked).2 := by
  cases hrule : rules[position]? with
  | none =>
      rw [checkRule, hrule]
      exact h
  | some rule =>
      rcases checkRule_cases hrule checked with ⟨e, after, hwalk, hcheck⟩ | ⟨after, hwalk, hcheck⟩
      · rw [hcheck]
        exact hwalk.settled h
      · rw [hcheck]
        by_cases hfirst : isFirst rules position = true
        · rw [if_pos hfirst]
          exact .cons (findRule?_of_isFirst hrule hfirst) (hwalk.refersInto rfl) (hwalk.settled h)
        · rw [if_neg hfirst]
          exact hwalk.settled h

/-- The ids that are done after rules have been checked in turn, whatever the outcomes. -/
def checkedAfter (rules : List Rule) (positions : List Nat) : List String :=
  positions.foldl (fun checked position => (checkRule rules position checked).2) []

theorem settled_checkedAfter (positions : List Nat) :
    Settled rules (checkedAfter rules positions) := by
  have hfold : ∀ (positions : List Nat) (checked : List String), Settled rules checked →
      Settled rules
        (positions.foldl (fun done position => (checkRule rules position done).2) checked) := by
    intro positions
    induction positions with
    | nil => exact fun _ h => h
    | cons position positions ih => exact fun _ h => ih _ (settled_checkRule h position)
  exact hfold positions [] .nil

/-- After any sequence of checks, checking the first rule with an id agrees with expanding it:
both succeed, or both fail with the same error. -/
theorem checkRule_eq_expandRule (positions : List Nat) {position : Nat} {rule : Rule}
    (hrule : rules[position]? = some rule) (hfirst : isFirst rules position = true) :
    (checkRule rules position (checkedAfter rules positions)).1 =
      (expandRule rules rule).map (fun _ => ()) := by
  have hsettled : Settled rules (checkedAfter rules positions) := settled_checkedAfter positions
  have hid := findRule?_of_isFirst hrule hfirst
  obtain ⟨after, hwalk⟩ : ∃ after, Walk rules [rule.id] (references rule.body)
      (checkedAfter rules positions)
      (checkRule rules position (checkedAfter rules positions)).1 after := by
    rcases checkRule_cases hrule (checkedAfter rules positions) with
      ⟨e, after, hwalk, hcheck⟩ | ⟨after, hwalk, hcheck⟩
    · rw [hcheck]
      exact ⟨after, hwalk⟩
    · rw [hcheck]
      exact ⟨after, hwalk⟩
  rw [expandRule]
  by_cases hmem : rule.id ∈ checkedAfter rules positions
  · -- The rule has been passed before. Then its expansion does not come back to it, and the
    -- walk meets nothing but rules that are done.
    obtain ⟨body, hbody⟩ := hsettled.exists_expandNodes hid hmem [] (by simp)
    rw [List.nil_append] at hbody
    rw [hbody]
    refine hwalk.outcome_eq_ok fun uri huri => ?_
    obtain ⟨_, hreference⟩ := exists_expandNodes_iff.1 ⟨body, hbody⟩ uri huri
    obtain ⟨target, htarget, hpath, -⟩ := expandReference_eq_ok.1 hreference
    obtain ⟨_, htarget', hdone⟩ := hsettled.refersInto hid hmem uri huri
    rw [htarget] at htarget'
    cases htarget'
    exact ⟨target, htarget, hpath, hdone⟩
  · -- The rule has not been passed, so the path that starts with it avoids all that is done.
    have hpath : ∀ id ∈ [rule.id], id ∉ checkedAfter rules positions := by simpa using hmem
    rw [expandNodes_outcome]
    exact hwalk.outcome_eq hsettled hpath

/-- Two rules with one id, the later one with a reference to nothing, and a rule that refers to
itself behind a reference that is fine. -/
def tangledRules : List Rule :=
  [{ id := "call", body := [.ruleRef "#name"] }, { id := "name", body := [.token "bob"] },
    { id := "call", body := [.ruleRef "#name", .ruleRef "#nobody"] },
    { id := "loop", body := [.ruleRef "#call", .element (.item none) [.ruleRef "#loop"]] }]

theorem checkRule_eq_expandRule_tangledRules :
    tangledRules[3]? = some tangledRules[3] ∧ isFirst tangledRules 3 = true ∧
      (checkRule tangledRules 3 (checkedAfter tangledRules [2, 3, 0])).1 =
        (expandRule tangledRules tangledRules[3]).map (fun _ => ()) := by
  have hrule : tangledRules[3]? = some tangledRules[3] := rfl
  have hfirst : isFirst tangledRules 3 = true := by decide
  exact ⟨hrule, hfirst, checkRule_eq_expandRule [2, 3, 0] hrule hfirst⟩

end SpeechGrammar
