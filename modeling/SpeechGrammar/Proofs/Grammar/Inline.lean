import Mathlib
import SpeechGrammar.Grammar.Edit
import SpeechGrammar.Proofs.Grammar.Check

set_option autoImplicit false

/-!
# Inlining

Inlining is sound and complete. If it succeeds, every reference of every rule resolves, no rule
refers to itself through others, and the result is as `Inlined` says. If it fails, nothing
changes. If all ids are different, it succeeds on every grammar whose references resolve and do
not run in a circle. Both directions go through the walk of `Check`: `sound_of_checkRules` reads
off what a walk without error leaves, and `checkRules_eq_ok` shows that there is no error to meet.
Inlining in place gives the same children, or leaves the old ones (`Grammar.inlineInPlace_eq`).
-/

namespace SpeechGrammar

open Relation

variable {rules : List Rule}

/-- The first rule with the id `a` has a reference to the rule with the id `b`. -/
def Refers (rules : List Rule) (a b : String) : Prop :=
  ∃ rule target uri, findRule? rules a = some rule ∧ uri ∈ references rule.body ∧
    resolve rules uri = .ok target ∧ target.id = b

/-- Every reference of every rule names a rule. -/
def Resolves (rules : List Rule) : Prop :=
  ∀ rule ∈ rules, ∀ uri ∈ references rule.body, ∃ target, resolve rules uri = .ok target

/-- No rule refers to itself, directly or through others. -/
def Acyclic (rules : List Rule) : Prop := ∀ id, ¬ TransGen (Refers rules) id id

/-! ## Settled rules do not run in a circle -/

theorem RefersInto.mem_of_refers {rule : Rule} {done : List String} {id : String}
    (hrule : findRule? rules rule.id = some rule)
    (h : RefersInto rules done (references rule.body)) (hrefers : Refers rules rule.id id) :
    id ∈ done := by
  obtain ⟨rule', target, uri, hrule', huri, htarget, rfl⟩ := hrefers
  rw [hrule] at hrule'
  cases hrule'
  obtain ⟨_, htarget', hdone⟩ := h uri huri
  rw [htarget] at htarget'
  cases htarget'
  exact hdone

theorem Settled.mem_of_reflTransGen {done : List String} (h : Settled rules done) {a b : String}
    (hab : ReflTransGen (Refers rules) a b) (ha : a ∈ done) : b ∈ done := by
  induction hab with
  | refl => exact ha
  | @tail b c _ hbc ih =>
      obtain ⟨rule, _, _, hrule, -⟩ := id hbc
      have hid := id_of_findRule? hrule
      subst hid
      exact (h.refersInto hrule ih).mem_of_refers hrule hbc

/-- The first rule on a circle would have to be settled before itself. -/
theorem Settled.not_transGen_self {done : List String} (h : Settled rules done) {id : String}
    (hid : id ∈ done) : ¬ TransGen (Refers rules) id id := by
  induction h with
  | nil => cases hid
  | @cons first done hfirst hrefers hdone ih =>
      intro hcircle
      by_cases hin : id ∈ done
      · exact ih hin hcircle
      · -- The circle starts at the rule in front and goes on behind it, where it has to stay.
        have hsame : id = first.id := (List.mem_cons.1 hid).resolve_right hin
        subst hsame
        obtain ⟨next, hnext, hback⟩ := TransGen.head'_iff.1 hcircle
        exact hin (hdone.mem_of_reflTransGen hback (hrefers.mem_of_refers hfirst hnext))

/-! ## A check of all rules -/

theorem exists_isFirst {id : String} {rule : Rule} (h : findRule? rules id = some rule) :
    ∃ position, rules[position]? = some rule ∧ isFirst rules position = true := by
  have hid := id_of_findRule? h
  obtain ⟨hp, position, hlt, hget, hbefore⟩ := List.find?_eq_some_iff_getElem.1 h
  have hrule : rules[position]? = some rule := by rw [List.getElem?_eq_getElem hlt, hget]
  refine ⟨position, hrule, ?_⟩
  have hindex : rules.findIdx? (·.id == rule.id) = some position := by
    rw [List.findIdx?_eq_some_iff_getElem]
    rw [hid]
    refine ⟨hlt, by simpa [hget] using hid, by simpa using hbefore⟩
  simp [isFirst, hrule, hindex]

/-- When rules have been checked without error, their references are to rules that are done, and
so is each of them that is the first with its id. Further checks go on from what is done. -/
theorem exists_of_checkRules {positions : List Nat} {checked : List String}
    (h : checkRules rules positions checked = .ok ()) (hchecked : Settled rules checked) :
    ∃ done, Settled rules done ∧ checked ⊆ done ∧
      (∀ later, checkRules rules (positions ++ later) checked = checkRules rules later done) ∧
      ∀ position ∈ positions, ∀ rule, rules[position]? = some rule →
        RefersInto rules done (references rule.body) ∧
          (isFirst rules position = true → rule.id ∈ done) := by
  -- The ids that are done only grow, so what one check leaves is still there at the end.
  induction positions generalizing checked with
  | nil => exact ⟨checked, hchecked, List.Subset.refl _, fun _ => rfl, by simp⟩
  | cons position positions ih =>
      rw [checkRules] at h
      have hsettled := settled_checkRule hchecked position
      cases hrule : rules[position]? with
      | none =>
          have hcheck : checkRule rules position checked = (.ok (), checked) := by
            rw [checkRule, hrule]
          rw [hcheck] at h
          obtain ⟨done, hdone, hsub, hlater, hall⟩ := ih h hchecked
          refine ⟨done, hdone, hsub, fun later => ?_, ?_⟩
          · rw [List.cons_append, checkRules, hcheck]
            exact hlater later
          · rintro position' hposition rule hget
            rcases List.mem_cons.1 hposition with rfl | hposition
            · rw [hrule] at hget
              cases hget
            · exact hall position' hposition rule hget
      | some rule =>
          rcases checkRule_cases hrule checked with ⟨e, after, _, hcheck⟩ | ⟨after, hwalk, hcheck⟩
          · rw [hcheck] at h
            cases h
          · rw [hcheck] at h hsettled
            obtain ⟨done, hdone, hsub, hlater, hall⟩ := ih h hsettled
            have hafter : after ⊆ done := fun id hid => hsub (by split <;> simp [hid])
            refine ⟨done, hdone, fun id hid => hafter (hwalk.subset hid), fun later => ?_, ?_⟩
            · rw [List.cons_append, checkRules, hcheck]
              exact hlater later
            · rintro position' hposition rule' hget
              rcases List.mem_cons.1 hposition with rfl | hposition
              · rw [hrule] at hget
                cases hget
                refine ⟨(hwalk.refersInto rfl).mono hafter, fun hfirst => hsub ?_⟩
                rw [if_pos hfirst]
                exact List.mem_cons_self ..
              · exact hall position' hposition rule' hget

/-- A check of all rules without error leaves nothing open: the references of every rule resolve,
and there is no circle. The rules that are done are settled. -/
theorem sound_of_checkRules (h : checkRules rules (List.range rules.length) [] = .ok ()) :
    Resolves rules ∧ Acyclic rules ∧ ∃ done, Settled rules done ∧
      ∀ id rule, findRule? rules id = some rule → id ∈ done := by
  obtain ⟨done, hdone, -, -, hall⟩ := exists_of_checkRules h .nil
  have hmem : ∀ id rule, findRule? rules id = some rule → id ∈ done := by
    intro id rule hrule
    obtain ⟨position, hget, hfirst⟩ := exists_isFirst hrule
    obtain ⟨hlt, -⟩ := List.getElem?_eq_some_iff.1 hget
    rw [← id_of_findRule? hrule]
    exact (hall position (List.mem_range.2 hlt) rule hget).2 hfirst
  refine ⟨?_, ?_, done, hdone, hmem⟩
  · intro rule hrule uri huri
    obtain ⟨position, hlt, hget⟩ := List.getElem_of_mem hrule
    have hposition := hall position (List.mem_range.2 hlt) rule (by
      rw [List.getElem?_eq_getElem hlt, hget])
    obtain ⟨target, htarget, -⟩ := hposition.1 uri huri
    exact ⟨target, htarget⟩
  · intro id hcircle
    obtain ⟨_, hnext, -⟩ := TransGen.head'_iff.1 hcircle
    obtain ⟨rule, _, _, hrule, -⟩ := hnext
    exact hdone.not_transGen_self (hmem id rule hrule) hcircle

/-! ## A check that must succeed -/

section Base

variable {base : List Rule} {done : List String}

/-- What resolves in `base` resolves among the rules, to a rule with the same id. It is the same
rule, unless a rule with this id is done. -/
def ResolvesAlike (rules base : List Rule) (done : List String) : Prop :=
  ∀ uri found, resolve base uri = .ok found →
    ∃ target, resolve rules uri = .ok target ∧ target.id = found.id ∧
      (target.id ∉ done → target = found)

theorem ResolvesAlike.refl : ResolvesAlike rules rules done :=
  fun _ found hfound => ⟨found, hfound, rfl, fun _ => rfl⟩

theorem ResolvesAlike.mono {done' : List String} (h : ResolvesAlike rules base done)
    (hsub : done ⊆ done') : ResolvesAlike rules base done' := by
  intro uri found hfound
  obtain ⟨target, htarget, hid, hsame⟩ := h uri found hfound
  exact ⟨target, htarget, hid, fun hnew => hsame fun hdone => hnew (hsub hdone)⟩

theorem ResolvesAlike.of_resolve {uri : String} {target found : Rule}
    (h : ResolvesAlike rules base done) (htarget : resolve rules uri = .ok target)
    (hfound : resolve base uri = .ok found) :
    target.id = found.id ∧ (target.id ∉ done → target = found) := by
  obtain ⟨target', htarget', hid, hsame⟩ := h uri found hfound
  rw [htarget] at htarget'
  cases htarget'
  exact ⟨hid, hsame⟩

/-- A walk along the references of rules in `base` cannot fail if these resolve and do not run in a
circle, and if nothing that it visits leads back to its path. It does not matter what other rules
there are, as long as the walk stays in `base` or meets what is done. -/
theorem Walk.outcome_eq_ok_of_acyclic {path uris after : List String} {outcome : Except Error Unit}
    (h : Walk rules path uris done outcome after) (halike : ResolvesAlike rules base done)
    (hresolves : Resolves base) (hacyclic : Acyclic base)
    (hpath : ∀ uri ∈ uris, ∃ found, resolve base uri = .ok found ∧
      ∀ id ∈ path, ¬ ReflTransGen (Refers base) found.id id) : outcome = .ok () := by
  -- A rule that joins the path is kept from coming up again: that would close a circle.
  induction h with
  | nil => rfl
  | @unresolved _ _ _ uri _ herror =>
      obtain ⟨found, hfound, -⟩ := hpath uri (List.mem_cons_self ..)
      obtain ⟨_, htarget, -⟩ := halike uri found hfound
      rw [herror] at htarget
      cases htarget
  | cyclic htarget hmem =>
      obtain ⟨found, hfound, hback⟩ := hpath _ (List.mem_cons_self ..)
      obtain ⟨hid, -⟩ := halike.of_resolve htarget hfound
      rw [hid] at hmem
      exact absurd .refl (hback _ hmem)
  | skipped _ _ _ _ ih => exact ih halike fun uri huri => hpath uri (List.mem_cons_of_mem _ huri)
  | @failed path uris done after uri target e htarget _ hnew _ ih =>
      obtain ⟨found, hfound, hback⟩ := hpath _ (List.mem_cons_self ..)
      obtain ⟨-, hsame⟩ := halike.of_resolve htarget hfound
      obtain rfl := hsame hnew
      refine ih halike fun uri' huri' => ?_
      obtain ⟨next, hnext⟩ := hresolves target (mem_of_resolve hfound) uri' huri'
      have hrefers : Refers base target.id next.id :=
        ⟨target, next, uri', findRule?_of_resolve hfound, huri', hnext, rfl⟩
      refine ⟨next, hnext, fun id hid hlead => ?_⟩
      rcases List.mem_append.1 hid with hid | hid
      · exact hback id hid (hlead.head hrefers)
      · rw [List.mem_singleton.1 hid] at hlead
        exact hacyclic _ (TransGen.head' hrefers hlead)
  | passed _ _ _ hbelow _ _ ih =>
      exact ih (halike.mono fun _ hid => List.mem_cons_of_mem _ (hbelow.subset hid))
        fun uri huri => hpath uri (List.mem_cons_of_mem _ huri)

end Base

theorem findRule?_of_nodup (hids : (rules.map Rule.id).Nodup) {rule : Rule}
    (hrule : rule ∈ rules) : findRule? rules rule.id = some rule := by
  induction rules with
  | nil => cases hrule
  | cons first rules ih =>
      rw [List.map_cons, List.nodup_cons] at hids
      rcases List.mem_cons.1 hrule with rfl | hrule
      · simp [findRule?]
      · have hne : first.id ≠ rule.id := by
          intro heq
          rw [heq] at hids
          exact hids.1 (List.mem_map_of_mem hrule)
        rw [findRule?, List.find?_cons_of_neg (by simpa using hne)]
        exact ih hids.2 hrule

/-- The rule refers to a rule that leads to its id. -/
def LeadsBack (rules : List Rule) (rule : Rule) : Prop :=
  ∃ uri ∈ references rule.body, ∃ target, resolve rules uri = .ok target ∧
    ReflTransGen (Refers rules) target.id rule.id

/-- Where references do not run in a circle, the first rule with an id does not lead back to it. -/
theorem Acyclic.not_leadsBack (h : Acyclic rules) {rule : Rule}
    (hrule : findRule? rules rule.id = some rule) : ¬ LeadsBack rules rule := by
  rintro ⟨uri, huri, target, htarget, hlead⟩
  exact h rule.id (TransGen.head' ⟨rule, target, uri, hrule, huri, htarget, rfl⟩ hlead)

/-- Rules of `base` are checked without error if their references resolve and do not run in a
circle, and none of them leads back to its id. -/
theorem checkRules_eq_ok_of_base {base : List Rule} (hresolves : Resolves base)
    (hacyclic : Acyclic base) (hback : ∀ rule ∈ base, ¬ LeadsBack base rule) {positions : List Nat}
    (hpositions : ∀ position ∈ positions, ∀ rule, rules[position]? = some rule → rule ∈ base)
    {checked : List String} (halike : ResolvesAlike rules base checked) :
    checkRules rules positions checked = .ok () := by
  induction positions generalizing checked with
  | nil => rfl
  | cons position positions ih =>
      rw [List.forall_mem_cons] at hpositions
      rw [checkRules]
      cases hrule : rules[position]? with
      | none =>
          rw [checkRule, hrule]
          exact ih hpositions.2 halike
      | some rule =>
          have hmem : rule ∈ base := hpositions.1 rule hrule
          rcases checkRule_cases hrule checked with
            ⟨e, after, hwalk, -⟩ | ⟨after, hwalk, hcheck⟩
          · refine absurd (hwalk.outcome_eq_ok_of_acyclic halike hresolves hacyclic ?_) (by simp)
            intro uri huri
            obtain ⟨found, hfound⟩ := hresolves rule hmem uri huri
            refine ⟨found, hfound, fun id hid hlead => ?_⟩
            rw [List.mem_singleton.1 hid] at hlead
            exact hback rule hmem ⟨uri, huri, found, hfound, hlead⟩
          · rw [hcheck]
            refine ih hpositions.2 (halike.mono fun id hid => ?_)
            split <;> simp [hwalk.subset hid]

theorem checkRules_eq_ok (hids : (rules.map Rule.id).Nodup) (hresolves : Resolves rules)
    (hacyclic : Acyclic rules) (positions : List Nat) (checked : List String) :
    checkRules rules positions checked = .ok () :=
  checkRules_eq_ok_of_base hresolves hacyclic
    (fun _ hrule => hacyclic.not_leadsBack (findRule?_of_nodup hids hrule))
    (fun _ _ _ hrule => List.mem_of_getElem? hrule) .refl

/-! ## The children that are left -/

/-- What inlining leaves of the children: the nodes and, if there is a root rule, that rule in
its place with the expansion of its body. -/
inductive Inlined (root? : Option String) (children : List Child) : List Child → Prop
  | withoutRoot (hroot : ∀ rule ∈ rulesOf children, some rule.id ≠ root?) :
      Inlined root? children (children.filter (·.rule?.isNone))
  | withRoot {before after : List Child} {rule : Rule} {body : List Node}
      (hchildren : children = before ++ .rule rule :: after) (hroot : root? = some rule.id)
      (hfirst : ∀ earlier ∈ rulesOf before, earlier.id ≠ rule.id)
      (hbody : ∀ ms, Expands (rulesOf children) rule.body ms ↔ ms = body) :
      Inlined root? children (before.filter (·.rule?.isNone) ++
        .rule { rule with body := body } :: after.filter (·.rule?.isNone))

theorem rulesOf_append (before after : List Child) :
    rulesOf (before ++ after) = rulesOf before ++ rulesOf after := List.filterMap_append ..

/-- The first rule with the root id gets the new body in its place; no other rule is left. -/
theorem keepRoot_append {before after : List Child} {rule : Rule} (body : List Node)
    (hfirst : ∀ earlier ∈ rulesOf before, earlier.id ≠ rule.id) :
    keepRoot rule.id body (before ++ .rule rule :: after) =
      before.filter (·.rule?.isNone) ++
        .rule { rule with body := body } :: after.filter (·.rule?.isNone) := by
  induction before with
  | nil => simp [keepRoot]
  | cons child before ih =>
      cases child with
      | node n =>
          rw [List.cons_append, keepRoot, ih hfirst]
          rfl
      | rule earlier =>
          have hne : earlier.id ≠ rule.id := hfirst earlier (List.mem_cons_self ..)
          rw [List.cons_append, keepRoot, if_neg hne,
            ih fun r hr => hfirst r (List.mem_cons_of_mem _ hr)]
          rfl

/-- The first rule with an id stands behind children that are not rules with this id. -/
theorem exists_append_of_findRule? {children : List Child} {id : String} {rule : Rule}
    (h : findRule? (rulesOf children) id = some rule) :
    ∃ before after, children = before ++ .rule rule :: after ∧
      ∀ earlier ∈ rulesOf before, earlier.id ≠ id := by
  induction children with
  | nil => cases h
  | cons child children ih =>
      cases child with
      | node n =>
          obtain ⟨before, after, hchildren, hfirst⟩ := ih h
          exact ⟨.node n :: before, after, by rw [hchildren]; rfl, hfirst⟩
      | rule first =>
          by_cases hid : first.id = id
          · have hsame : first = rule := by
              simpa [rulesOf, Child.rule?, findRule?, hid] using h
            exact ⟨[], children, by rw [hsame]; rfl, by simp [rulesOf]⟩
          · have hrest : findRule? (rulesOf children) id = some rule := by
              simpa [rulesOf, Child.rule?, findRule?, hid] using h
            obtain ⟨before, after, hchildren, hfirst⟩ := ih hrest
            refine ⟨.rule first :: before, after, by rw [hchildren]; rfl, ?_⟩
            intro earlier hearlier
            rcases List.mem_cons.1 hearlier with rfl | hearlier
            · exact hid
            · exact hfirst earlier hearlier

theorem checkRules_of_inlineChildren {root? : Option String} {children inlined : List Child}
    (h : inlineChildren root? children = .ok inlined) :
    checkRules (rulesOf children) (List.range (rulesOf children).length) [] = .ok () := by
  unfold inlineChildren at h
  cases hcheck : checkRules (rulesOf children) (List.range (rulesOf children).length) [] with
  | error e => simp [hcheck] at h
  | ok _ => rfl

/-- After a check without error inlining succeeds, with the result that `Inlined` says. -/
theorem exists_inlined {children : List Child}
    (h : checkRules (rulesOf children) (List.range (rulesOf children).length) [] = .ok ())
    (root? : Option String) :
    ∃ inlined, inlineChildren root? children = .ok inlined ∧ Inlined root? children inlined := by
  unfold inlineChildren
  simp only [h]
  cases root? with
  | none => exact ⟨_, rfl, .withoutRoot (by simp)⟩
  | some root =>
      dsimp only
      cases hrule : findRule? (rulesOf children) root with
      | none =>
          refine ⟨_, rfl, .withoutRoot fun rule hmem heq => ?_⟩
          have hne := List.find?_eq_none.1 hrule rule hmem
          cases heq
          exact hne (by simp)
      | some rule =>
          have hid := id_of_findRule? hrule
          subst hid
          -- The root rule is settled, so expanding it cannot fail any more.
          obtain ⟨_, _, done, hdone, hmem⟩ := sound_of_checkRules h
          obtain ⟨body, hbody⟩ :=
            hdone.exists_expandNodes hrule (hmem _ rule hrule) [] (by simp)
          obtain ⟨before, after, hchildren, hfirst⟩ := exists_append_of_findRule? hrule
          refine ⟨keepRoot rule.id body children, ?_, ?_⟩
          · exact map_eq_ok.2 ⟨body, hbody, rfl⟩
          · have hexpands := expands_of_expandNodes hbody
            have hkeep : keepRoot rule.id body (before ++ .rule rule :: after) = _ :=
              keepRoot_append body hfirst
            rw [← hchildren] at hkeep
            rw [hkeep]
            refine .withRoot hchildren rfl hfirst fun ms => ?_
            constructor
            · intro hms
              exact hms.unique hexpands
            · rintro rfl
              exact hexpands

theorem inlined_of_inlineChildren {root? : Option String} {children inlined : List Child}
    (h : inlineChildren root? children = .ok inlined) : Inlined root? children inlined := by
  obtain ⟨_, hsame, hinlined⟩ := exists_inlined (checkRules_of_inlineChildren h) root?
  rw [h] at hsame
  cases hsame
  exact hinlined

theorem rulesOf_filter_nodes (children : List Child) :
    rulesOf (children.filter (·.rule?.isNone)) = [] := by
  rw [rulesOf, List.filterMap_eq_nil_iff]
  intro child hchild
  exact Option.isNone_iff_eq_none.1 (List.mem_filter.1 hchild).2

theorem rulesOf_withRoot (before after : List Child) (rule : Rule) :
    rulesOf (before.filter (·.rule?.isNone) ++ .rule rule :: after.filter (·.rule?.isNone)) =
      [rule] := by
  rw [rulesOf_append, rulesOf_filter_nodes, List.nil_append, ← List.singleton_append,
    rulesOf_append, rulesOf_filter_nodes, List.append_nil]
  rfl

/-- A rule is found by its id, if no rule before it has this id. -/
theorem findRule?_of_first {children before after : List Child} {rule : Rule}
    (hchildren : children = before ++ .rule rule :: after)
    (hfirst : ∀ earlier ∈ rulesOf before, earlier.id ≠ rule.id) :
    findRule? (rulesOf children) rule.id = some rule := by
  have hbefore : findRule? (rulesOf before) rule.id = none :=
    List.find?_eq_none.2 (by simpa using hfirst)
  rw [hchildren, rulesOf_append, findRule?_append, hbefore]
  simp [rulesOf, Child.rule?, findRule?]

/-- Inlining leaves the root rule alone, with its expansion for a body. -/
theorem Inlined.rulesOf_eq {root? : Option String} {children inlined : List Child} {root : Rule}
    (h : Inlined root? children inlined)
    (hroot : root?.bind (findRule? (rulesOf children)) = some root) :
    ∃ body, Expands (rulesOf children) root.body body ∧
      rulesOf inlined = [{ root with body := body }] := by
  cases h with
  | withoutRoot hnone =>
      obtain ⟨id, hid, hrule⟩ := Option.bind_eq_some_iff.1 hroot
      refine absurd ?_ (hnone root (mem_of_findRule? hrule))
      rw [id_of_findRule? hrule, hid]
  | @withRoot before after rule body hchildren hid hfirst hbody =>
      have hrule := findRule?_of_first hchildren hfirst
      rw [hid, Option.bind_some, hrule] at hroot
      cases hroot
      exact ⟨body, (hbody body).2 rfl, rulesOf_withRoot before after _⟩

theorem Inlined.rulesOf_eq_nil {root? : Option String} {children inlined : List Child}
    (h : Inlined root? children inlined)
    (hroot : root?.bind (findRule? (rulesOf children)) = none) : rulesOf inlined = [] := by
  cases h with
  | withoutRoot _ => exact rulesOf_filter_nodes children
  | @withRoot before after rule body hchildren hid hfirst _ =>
      have hrule := findRule?_of_first hchildren hfirst
      rw [hid, Option.bind_some, hrule] at hroot
      cases hroot

/-- After inlining, the root rule is the only rule. -/
theorem Inlined.rulesOf_eq_toList {root? : Option String} {children inlined : List Child}
    (h : Inlined root? children inlined) :
    rulesOf inlined = (root?.bind (findRule? (rulesOf inlined))).toList := by
  cases h with
  | withoutRoot _ =>
      rw [rulesOf_filter_nodes]
      cases root? <;> rfl
  | withRoot _ hroot _ _ => simp [rulesOf_withRoot, hroot, findRule?]

/-- No rule that is left has a reference. -/
theorem Inlined.references_eq_nil {root? : Option String} {children inlined : List Child}
    (h : Inlined root? children inlined) :
    ∀ rule ∈ rulesOf inlined, references rule.body = [] := by
  intro rule hrule
  cases h with
  | withoutRoot _ =>
      rw [rulesOf_filter_nodes] at hrule
      cases hrule
  | @withRoot before after root body _ _ _ hbody =>
      rw [rulesOf_withRoot, List.mem_singleton] at hrule
      rw [hrule]
      exact ((hbody body).2 rfl).references_eq_nil

/-! ## Inlining in place -/

/-- Without a new body no rule is kept. -/
theorem retainRoot_none (root? : Option String) (children : List Child) :
    retainRoot root? none children = children.filter (·.rule?.isNone) := by
  induction children with
  | nil => rfl
  | cons child rest ih => cases child <;> simp [retainRoot, Child.rule?, ih]

theorem retainRoot_some (root : String) (body : List Node) (children : List Child) :
    retainRoot (some root) (some body) children = keepRoot root body children := by
  induction children with
  | nil => rfl
  | cons child rest ih =>
      cases child with
      | node n => rw [retainRoot, keepRoot, ih]
      | rule r =>
          rw [retainRoot, keepRoot, ih, retainRoot_none]
          simp only [Option.some.injEq, eq_comm]

/-- Inlining in place changes the grammar only once there can be no error. -/
theorem Grammar.inlineInPlace_eq (g : Grammar) : g.inlineInPlace = g.replaceBy g.inlined := by
  rw [Grammar.inlineInPlace, Grammar.inlined, inlineChildren.eq_def]
  dsimp only
  rw [← Grammar.rules]
  cases checkRules g.rules (List.range g.rules.length) [] with
  | error e => rfl
  | ok _ =>
      dsimp only
      rw [Grammar.rootRule?, funext (Grammar.rule?.eq_def g)]
      cases g.root with
      | none => simp [Grammar.replaceBy, retainRoot_none, pure, Except.pure, Except.map]
      | some root =>
          dsimp only [Option.bind_some]
          cases findRule? g.rules root with
          | none => simp [Grammar.replaceBy, retainRoot_none, pure, Except.pure, Except.map]
          | some rule =>
              dsimp only [Option.mapM_some]
              cases expandRule g.rules rule with
              | error e => rfl
              | ok body =>
                  simp [Grammar.replaceBy, retainRoot_some, Except.map]

/-! ## Sound and complete -/

/-- Inlining is sound and complete. If it succeeds, all references resolve, there is no circle
of references, and the root rule is left, expanded, among the nodes; in place, these are the
children from then on. If it fails, it fails in place with the same error, and the grammar is still
the one that it was. If all ids are different and the references resolve and do not run in a
circle, it succeeds. -/
theorem inlineChildren_sound_complete (root? : Option String) (children : List Child) :
    (∀ inlined, inlineChildren root? children = .ok inlined →
        Resolves (rulesOf children) ∧ Acyclic (rulesOf children) ∧
          Inlined root? children inlined ∧
          (∀ rule ∈ rulesOf inlined, references rule.body = []) ∧
          ∀ g : Grammar, g.root = root? → g.children = children →
            g.inlineInPlace = (.ok (), { g with children := inlined })) ∧
      (∀ e, inlineChildren root? children = .error e →
        ∀ g : Grammar, g.root = root? → g.children = children → g.inlineInPlace = (.error e, g)) ∧
      (((rulesOf children).map Rule.id).Nodup → Resolves (rulesOf children) →
        Acyclic (rulesOf children) → ∃ inlined, inlineChildren root? children = .ok inlined) := by
  refine ⟨?_, ?_, ?_⟩
  · intro inlined h
    have hcheck := checkRules_of_inlineChildren h
    obtain ⟨hresolves, hacyclic, -⟩ := sound_of_checkRules hcheck
    have hinlined := inlined_of_inlineChildren h
    refine ⟨hresolves, hacyclic, hinlined, hinlined.references_eq_nil, ?_⟩
    rintro g rfl rfl
    have hok : g.inlined = .ok { g with children := inlined } := map_eq_ok.2 ⟨inlined, h, rfl⟩
    rw [g.inlineInPlace_eq, hok, Grammar.replaceBy]
  · rintro e h g rfl rfl
    have hfail : g.inlined = .error e := map_eq_error.2 h
    rw [g.inlineInPlace_eq, hfail, Grammar.replaceBy]
  · intro hids hresolves hacyclic
    obtain ⟨inlined, h, -⟩ := exists_inlined (checkRules_eq_ok hids hresolves hacyclic _ _) root?
    exact ⟨inlined, h⟩

/-- A root rule that refers to another rule twice, between a tag and raw text. -/
def greetingChildren : List Child :=
  [.node (.tag "v1"), .rule { id := "name", body := [.token "bob"] },
    .rule { id := "main", scope := .isPublic,
            body := [.ruleRef "#name",
              .element .oneOf [.element (.item none) [.ruleRef "#name"]]] },
    .node (.literal "end")]

theorem inlineChildren_greetingChildren : inlineChildren (some "main") greetingChildren =
    .ok [.node (.tag "v1"),
      .rule { id := "main", scope := .isPublic,
              body := [.token "bob", .element .oneOf [.element (.item none) [.token "bob"]]] },
      .node (.literal "end")] := by
  cbv

/-- A rule that refers to itself. -/
def loopingChildren : List Child := [.rule { id := "loop", body := [.ruleRef "#loop"] }]

theorem inlineChildren_loopingChildren : inlineChildren (some "main") loopingChildren =
    .error (.cyclicReference ["loop", "loop"]) := by
  cbv

theorem inlineChildren_sound_complete_greetingChildren :
    (∃ inlined, inlineChildren (some "main") greetingChildren = .ok inlined ∧
        Inlined (some "main") greetingChildren inlined ∧
        ∀ rule ∈ rulesOf inlined, references rule.body = []) ∧
      (((rulesOf greetingChildren).map Rule.id).Nodup ∧ Resolves (rulesOf greetingChildren) ∧
        Acyclic (rulesOf greetingChildren) ∧
        ∃ inlined, inlineChildren none greetingChildren = .ok inlined) ∧
      Grammar.inlineInPlace { root := some "main", children := loopingChildren } =
        (.error (.cyclicReference ["loop", "loop"]),
          { root := some "main", children := loopingChildren }) := by
  have hids : ((rulesOf greetingChildren).map Rule.id).Nodup := by decide
  obtain ⟨hsound, -, -⟩ := inlineChildren_sound_complete (some "main") greetingChildren
  obtain ⟨hresolves, hacyclic, hinlined, hnone, -⟩ := hsound _ inlineChildren_greetingChildren
  obtain ⟨-, -, hcomplete⟩ := inlineChildren_sound_complete none greetingChildren
  obtain ⟨-, hunchanged, -⟩ := inlineChildren_sound_complete (some "main") loopingChildren
  exact ⟨⟨_, inlineChildren_greetingChildren, hinlined, hnone⟩,
    ⟨hids, hresolves, hacyclic, hcomplete hids hresolves hacyclic⟩,
    hunchanged _ inlineChildren_loopingChildren _ rfl rfl⟩

end SpeechGrammar
