import Mathlib.Data.Finset.Card
import SpeechGrammar.Proofs.Grammar.Check

set_option autoImplicit false

/-!
# Following references with a stack

The two walks along references are one loop with different things to do on the way (`Visitor`). The
loop keeps the calls that are going on and one stack of ids for all of them: a call for a referenced
rule puts the id of the rule on the stack, and its return takes the last id off, whatever that is
(`Descent.step`).

Every call comes to an end (`exists_visits`, `Visits.follows`): a call for a rule has one more id
on the stack and so fewer rules left to use, and any other call has fewer nodes before it. At each
turn the stack names the rules whose calls are going on, each once (`Descent.IsSound`). So every
walk ends, with the outcome of the recursive definitions, and needs no more stack than there are ids
(`descent_ends`).
-/

namespace SpeechGrammar

/-! ## The loop -/

/-- What a walk does on its way with what it has gathered. -/
structure Visitor (σ : Type) where
  /-- The rule with the id need not be walked. -/
  skips : σ → String → Bool
  /-- At a node that is neither a reference nor an element. -/
  visit : Node → σ → σ
  /-- Before the nodes of a call. -/
  enter : σ → σ
  /-- Behind the children of an element. -/
  leaveElement : Container → σ → σ
  /-- Behind the body of a referenced rule. -/
  leaveRule : String → σ → σ

/-- The check gathers the ids of the rules that are done. -/
def checkVisitor : Visitor (List String) where
  skips checked id := checked.contains id
  visit _ checked := checked
  enter checked := checked
  leaveElement _ checked := checked
  leaveRule id checked := id :: checked

/-- Put the nodes of the innermost call behind those of the one around it. -/
def foldInnermost (f : List Node → List Node) : List (List Node) → List (List Node)
  | inner :: outer :: rest => (outer ++ f inner) :: rest
  | outs => outs

/-- The expansion gathers the nodes of each call that is going on, the innermost first. -/
def expandVisitor : Visitor (List (List Node)) where
  skips _ _ := false
  visit n := fun
    | inner :: rest => (inner ++ [n]) :: rest
    | [] => []
  enter outs := [] :: outs
  leaveElement container := foldInnermost fun children => [.element container children]
  leaveRule _ := foldInnermost id

/-- What the nodes of a call are: the body of the rule that a walk starts with, the children of an
element, or the body of a referenced rule. -/
inductive Origin where
  | start
  | element (container : Container)
  | rule (id : String)

/-- A call that is going on, with the nodes that are still before it. -/
structure Call where
  origin : Origin
  nodes : List Node

/-- A walk on its way: the calls that are going on, the innermost first, the stack of ids, the
oldest first, and what has been gathered. -/
structure Descent (σ : Type) where
  calls : List Call
  stack : List String
  gathered : σ

/-- A walk that begins with the body of a rule. -/
def Descent.start {σ : Type} (rule : Rule) (gathered : σ) : Descent σ :=
  ⟨[⟨.start, rule.body⟩], [rule.id], gathered⟩

namespace Descent

variable {σ : Type} (v : Visitor σ) (rules : List Rule)

/-- The return of a call. -/
def comeBack (outer : List Call) (stack : List String) (gathered : σ) : Origin → Descent σ
  | .start => ⟨outer, stack, gathered⟩
  | .element container => ⟨outer, stack, v.leaveElement container gathered⟩
  | .rule id => ⟨outer, stack.dropLast, v.leaveRule id gathered⟩

@[simp] theorem comeBack_calls (outer : List Call) (stack : List String) (gathered : σ)
    (origin : Origin) : (comeBack v outer stack gathered origin).calls = outer := by
  cases origin <;> rfl

/-- One turn of the loop: what comes next, or the outcome with what has been gathered until then. -/
def step : Descent σ → Descent σ ⊕ (Except Error Unit × σ)
  | ⟨[], _, gathered⟩ => .inr (.ok (), gathered)
  | ⟨⟨origin, []⟩ :: outer, stack, gathered⟩ => .inl (comeBack v outer stack gathered origin)
  | ⟨⟨origin, .ruleRef uri :: nodes⟩ :: outer, stack, gathered⟩ =>
      match resolve rules uri with
      | .error e => .inr (.error e, gathered)
      | .ok target =>
          if target.id ∈ stack then
            .inr (.error (.cyclicReference (stack ++ [target.id])), gathered)
          else if v.skips gathered target.id then .inl ⟨⟨origin, nodes⟩ :: outer, stack, gathered⟩
          else .inl ⟨⟨.rule target.id, target.body⟩ :: ⟨origin, nodes⟩ :: outer,
            stack ++ [target.id], v.enter gathered⟩
  | ⟨⟨origin, .element container children :: nodes⟩ :: outer, stack, gathered⟩ =>
      .inl ⟨⟨.element container, children⟩ :: ⟨origin, nodes⟩ :: outer, stack, v.enter gathered⟩
  | ⟨⟨origin, n :: nodes⟩ :: outer, stack, gathered⟩ =>
      .inl ⟨⟨origin, nodes⟩ :: outer, stack, v.visit n gathered⟩

/-- Any number of turns lead from one place of a walk to the other. -/
def LeadsTo : Descent σ → Descent σ → Prop :=
  Relation.ReflTransGen fun d d' => step v rules d = .inl d'

/-- The walk comes to an end, with an outcome and what has been gathered. -/
def EndsWith (d : Descent σ) (outcome : Except Error Unit × σ) : Prop :=
  ∃ last, LeadsTo v rules d last ∧ step v rules last = .inr outcome

/-! ## One turn -/

/-- What a turn can lead to: the next node, a call, or the return of one. -/
inductive Turn : Descent σ → Descent σ → Prop
  | visit {origin : Origin} {n : Node} {nodes : List Node} {outer : List Call}
      {stack : List String} {gathered : σ} (hn : n.IsLeaf) :
      Turn ⟨⟨origin, n :: nodes⟩ :: outer, stack, gathered⟩
        ⟨⟨origin, nodes⟩ :: outer, stack, v.visit n gathered⟩
  | skip {origin : Origin} {uri : String} {target : Rule} {nodes : List Node} {outer : List Call}
      {stack : List String} {gathered : σ} (htarget : resolve rules uri = .ok target)
      (hnew : target.id ∉ stack) (hskip : v.skips gathered target.id = true) :
      Turn ⟨⟨origin, .ruleRef uri :: nodes⟩ :: outer, stack, gathered⟩
        ⟨⟨origin, nodes⟩ :: outer, stack, gathered⟩
  | callElement {origin : Origin} {container : Container} {children nodes : List Node}
      {outer : List Call} {stack : List String} {gathered : σ} :
      Turn ⟨⟨origin, .element container children :: nodes⟩ :: outer, stack, gathered⟩
        ⟨⟨.element container, children⟩ :: ⟨origin, nodes⟩ :: outer, stack, v.enter gathered⟩
  | callRule {origin : Origin} {uri : String} {target : Rule} {nodes : List Node}
      {outer : List Call} {stack : List String} {gathered : σ}
      (htarget : resolve rules uri = .ok target) (hnew : target.id ∉ stack)
      (hwalk : v.skips gathered target.id = false) :
      Turn ⟨⟨origin, .ruleRef uri :: nodes⟩ :: outer, stack, gathered⟩
        ⟨⟨.rule target.id, target.body⟩ :: ⟨origin, nodes⟩ :: outer, stack ++ [target.id],
          v.enter gathered⟩
  | comeBack {origin : Origin} {outer : List Call} {stack : List String} {gathered : σ} :
      Turn ⟨⟨origin, []⟩ :: outer, stack, gathered⟩ (comeBack v outer stack gathered origin)

variable {v rules}

theorem Turn.step_eq {d d' : Descent σ} (h : Turn v rules d d') : step v rules d = .inl d' := by
  cases h with
  | @visit _ n _ _ _ _ hn =>
      cases n with
      | literal _ | token _ | tag _ => rfl
      | ruleRef _ | element _ _ => cases hn
  | skip htarget hnew hskip => simp [step, htarget, hnew, hskip]
  | callRule htarget hnew hwalk => simp [step, htarget, hnew, hwalk]
  | callElement | comeBack => rfl

theorem turn_of_step {d d' : Descent σ} (h : step v rules d = .inl d') : Turn v rules d d' := by
  obtain ⟨_ | ⟨⟨origin, _ | ⟨n, nodes⟩⟩, outer⟩, stack, gathered⟩ := d
  · cases h
  · cases h
    exact .comeBack
  · cases n with
    | literal _ | token _ | tag _ =>
        cases h
        exact .visit trivial
    | element container children =>
        cases h
        exact .callElement
    | ruleRef uri =>
        rw [step] at h
        split at h
        · cases h
        · rename_i target htarget
          split_ifs at h with hmem hskip
          · cases h
            exact .skip htarget hmem hskip
          · cases h
            exact .callRule htarget hmem (by simpa using hskip)

theorem Turn.leadsTo {d d' : Descent σ} (h : Turn v rules d d') : LeadsTo v rules d d' :=
  .single h.step_eq

/-- The return of a rule takes its id off the stack if it is the last one there. -/
theorem step_return {id : String} {outer : List Call} {stack : List String} {gathered : σ} :
    step v rules ⟨⟨.rule id, []⟩ :: outer, stack ++ [id], gathered⟩ =
      .inl ⟨outer, stack, v.leaveRule id gathered⟩ := by
  rw [step, comeBack, List.dropLast_concat]

theorem EndsWith.of_leadsTo {d d' : Descent σ} {outcome : Except Error Unit × σ}
    (h : LeadsTo v rules d d') (hends : EndsWith v rules d' outcome) :
    EndsWith v rules d outcome := by
  obtain ⟨last, hlast, hstep⟩ := hends
  exact ⟨last, h.trans hlast, hstep⟩

end Descent

/-! ## Every call comes to an end -/

/-- Below a path, a call for some nodes goes from what has been gathered to an outcome and what has
been gathered then. -/
inductive Visits {σ : Type} (v : Visitor σ) (rules : List Rule) :
    List String → List Node → σ → Except Error Unit → σ → Prop
  | nil {path : List String} {gathered : σ} : Visits v rules path [] gathered (.ok ()) gathered
  | leaf {path : List String} {n : Node} {nodes : List Node} {gathered after : σ}
      {outcome : Except Error Unit} (hn : n.IsLeaf)
      (hrest : Visits v rules path nodes (v.visit n gathered) outcome after) :
      Visits v rules path (n :: nodes) gathered outcome after
  | elementFailed {path : List String} {container : Container} {children nodes : List Node}
      {gathered after : σ} {e : Error}
      (hchildren : Visits v rules path children (v.enter gathered) (.error e) after) :
      Visits v rules path (.element container children :: nodes) gathered (.error e) after
  | element {path : List String} {container : Container} {children nodes : List Node}
      {gathered between after : σ} {outcome : Except Error Unit}
      (hchildren : Visits v rules path children (v.enter gathered) (.ok ()) between)
      (hrest : Visits v rules path nodes (v.leaveElement container between) outcome after) :
      Visits v rules path (.element container children :: nodes) gathered outcome after
  | unresolved {path : List String} {uri : String} {nodes : List Node} {gathered : σ} {e : Error}
      (herror : resolve rules uri = .error e) :
      Visits v rules path (.ruleRef uri :: nodes) gathered (.error e) gathered
  | cyclic {path : List String} {uri : String} {target : Rule} {nodes : List Node} {gathered : σ}
      (htarget : resolve rules uri = .ok target) (hmem : target.id ∈ path) :
      Visits v rules path (.ruleRef uri :: nodes) gathered
        (.error (.cyclicReference (path ++ [target.id]))) gathered
  | skipped {path : List String} {uri : String} {target : Rule} {nodes : List Node}
      {gathered after : σ} {outcome : Except Error Unit} (htarget : resolve rules uri = .ok target)
      (hnew : target.id ∉ path) (hskip : v.skips gathered target.id = true)
      (hrest : Visits v rules path nodes gathered outcome after) :
      Visits v rules path (.ruleRef uri :: nodes) gathered outcome after
  | ruleFailed {path : List String} {uri : String} {target : Rule} {nodes : List Node}
      {gathered after : σ} {e : Error} (htarget : resolve rules uri = .ok target)
      (hnew : target.id ∉ path) (hwalk : v.skips gathered target.id = false)
      (hbody : Visits v rules (path ++ [target.id]) target.body (v.enter gathered) (.error e)
        after) :
      Visits v rules path (.ruleRef uri :: nodes) gathered (.error e) after
  | rule {path : List String} {uri : String} {target : Rule} {nodes : List Node}
      {gathered between after : σ} {outcome : Except Error Unit}
      (htarget : resolve rules uri = .ok target) (hnew : target.id ∉ path)
      (hwalk : v.skips gathered target.id = false)
      (hbody : Visits v rules (path ++ [target.id]) target.body (v.enter gathered) (.ok ())
        between)
      (hrest : Visits v rules path nodes (v.leaveRule target.id between) outcome after) :
      Visits v rules path (.ruleRef uri :: nodes) gathered outcome after

section Visits

variable {σ : Type} {v : Visitor σ} {rules : List Rule}

/-- A call has an outcome on every list of rules. A call for a rule leaves fewer rules that are not
on the path, any other call fewer nodes. -/
theorem exists_visits (v : Visitor σ) (rules : List Rule) (path : List String) (nodes : List Node)
    (gathered : σ) : ∃ outcome after, Visits v rules path nodes gathered outcome after := by
  match nodes with
  | [] => exact ⟨_, _, .nil⟩
  | .literal _ :: nodes | .token _ :: nodes | .tag _ :: nodes =>
      obtain ⟨outcome, after, hrest⟩ := exists_visits v rules path nodes (v.visit _ gathered)
      exact ⟨outcome, after, .leaf trivial hrest⟩
  | .element container children :: nodes =>
      obtain ⟨_ | _, between, hchildren⟩ := exists_visits v rules path children (v.enter gathered)
      · exact ⟨_, _, .elementFailed hchildren⟩
      · obtain ⟨outcome, after, hrest⟩ :=
          exists_visits v rules path nodes (v.leaveElement container between)
        exact ⟨outcome, after, .element hchildren hrest⟩
  | .ruleRef uri :: nodes =>
      cases htarget : resolve rules uri with
      | error e => exact ⟨_, _, .unresolved htarget⟩
      | ok target =>
          by_cases hmem : target.id ∈ path
          · exact ⟨_, _, .cyclic htarget hmem⟩
          · cases hskip : v.skips gathered target.id with
            | true =>
                obtain ⟨outcome, after, hrest⟩ := exists_visits v rules path nodes gathered
                exact ⟨outcome, after, .skipped htarget hmem hskip hrest⟩
            | false =>
                have hfewer := unusedRules_lt (mem_of_resolve htarget) hmem
                obtain ⟨_ | _, between, hbody⟩ :=
                  exists_visits v rules (path ++ [target.id]) target.body (v.enter gathered)
                · exact ⟨_, _, .ruleFailed htarget hmem hskip hbody⟩
                · obtain ⟨outcome, after, hrest⟩ :=
                    exists_visits v rules path nodes (v.leaveRule target.id between)
                  exact ⟨outcome, after, .rule htarget hmem hskip hbody hrest⟩
termination_by (unusedRules rules path, sizeOf nodes)

/-- From a place of a walk, the call that is innermost there runs to an outcome: it comes to the end
of its nodes with the stack as it was, or the walk ends with an error. -/
def Descent.RunsTo (v : Visitor σ) (rules : List Rule) (d : Descent σ) (origin : Origin)
    (outer : List Call) (stack : List String) : Except Error Unit → σ → Prop
  | .ok (), after => LeadsTo v rules d ⟨⟨origin, []⟩ :: outer, stack, after⟩
  | .error e, after => EndsWith v rules d (.error e, after)

theorem Descent.RunsTo.of_leadsTo {d d' : Descent σ} {origin : Origin} {outer : List Call}
    {stack : List String} {outcome : Except Error Unit} {after : σ} (h : LeadsTo v rules d d')
    (hruns : RunsTo v rules d' origin outer stack outcome after) :
    RunsTo v rules d origin outer stack outcome after := by
  cases outcome with
  | error e => exact EndsWith.of_leadsTo h hruns
  | ok _ => exact h.trans hruns

/-- The loop follows every call, whatever calls are going on around it. -/
theorem Visits.follows {path : List String} {nodes : List Node} {gathered after : σ}
    {outcome : Except Error Unit} (h : Visits v rules path nodes gathered outcome after)
    (origin : Origin) (outer : List Call) :
    Descent.RunsTo v rules ⟨⟨origin, nodes⟩ :: outer, path, gathered⟩ origin outer path outcome
      after := by
  induction h generalizing origin outer with
  | nil => exact .refl
  | leaf hn _ ih => exact (ih origin outer).of_leadsTo (Descent.Turn.visit hn).leadsTo
  | elementFailed _ ih => exact (ih _ _).of_leadsTo Descent.Turn.callElement.leadsTo
  | @element path container children nodes gathered between _ _ _ _ ihchildren ih =>
      have hcall : Descent.LeadsTo v rules
          ⟨⟨origin, .element container children :: nodes⟩ :: outer, path, gathered⟩
          ⟨⟨.element container, []⟩ :: ⟨origin, nodes⟩ :: outer, path, between⟩ :=
        Descent.Turn.callElement.leadsTo.trans (ihchildren _ _)
      exact (ih origin outer).of_leadsTo (hcall.trans Descent.Turn.comeBack.leadsTo)
  | unresolved herror => exact ⟨_, .refl, by simp [Descent.step, herror]⟩
  | cyclic htarget hmem => exact ⟨_, .refl, by simp [Descent.step, htarget, hmem]⟩
  | skipped htarget hnew hskip _ ih =>
      exact (ih origin outer).of_leadsTo (Descent.Turn.skip htarget hnew hskip).leadsTo
  | ruleFailed htarget hnew hwalk _ ih =>
      exact (ih _ _).of_leadsTo (Descent.Turn.callRule htarget hnew hwalk).leadsTo
  | @rule path uri target nodes gathered between _ _ htarget hnew hwalk _ _ ihbody ih =>
      have hcall : Descent.LeadsTo v rules
          ⟨⟨origin, .ruleRef uri :: nodes⟩ :: outer, path, gathered⟩
          ⟨⟨.rule target.id, []⟩ :: ⟨origin, nodes⟩ :: outer, path ++ [target.id], between⟩ :=
        (Descent.Turn.callRule htarget hnew hwalk).leadsTo.trans (ihbody _ _)
      exact (ih origin outer).of_leadsTo (hcall.tail Descent.step_return)

/-- At every place of a walk, the call that is innermost there runs to an outcome. -/
theorem Descent.exists_runsTo (v : Visitor σ) (rules : List Rule) (origin : Origin)
    (nodes : List Node) (outer : List Call) (stack : List String) (gathered : σ) : ∃ outcome after,
      RunsTo v rules ⟨⟨origin, nodes⟩ :: outer, stack, gathered⟩ origin outer stack outcome
        after := by
  obtain ⟨outcome, after, hvisits⟩ := exists_visits v rules stack nodes gathered
  exact ⟨outcome, after, hvisits.follows origin outer⟩

/-- A call that a turn makes fails, or it returns and the stack is again what it was before. -/
theorem Descent.Turn.exists_return {d d' : Descent σ} (h : Turn v rules d d')
    (hcall : d.calls.length < d'.calls.length) :
    (∃ e after, EndsWith v rules d' (.error e, after)) ∨
      ∃ d'', LeadsTo v rules d' d'' ∧ d''.calls = d'.calls.tail ∧ d''.stack = d.stack := by
  cases h with
  | visit _ | skip _ _ _ => exact absurd hcall (Nat.lt_irrefl _)
  | comeBack => exact absurd hcall (by simp)
  | @callElement origin container children nodes outer stack gathered =>
      obtain ⟨e | _, after, hruns⟩ := exists_runsTo v rules (.element container) children
        (⟨origin, nodes⟩ :: outer) stack (v.enter gathered)
      · exact .inl ⟨e, after, hruns⟩
      · exact .inr ⟨_, hruns.tail Turn.comeBack.step_eq, rfl, rfl⟩
  | @callRule origin uri target nodes outer stack gathered =>
      obtain ⟨e | _, after, hruns⟩ := exists_runsTo v rules (.rule target.id) target.body
        (⟨origin, nodes⟩ :: outer) (stack ++ [target.id]) (v.enter gathered)
      · exact .inl ⟨e, after, hruns⟩
      · exact .inr ⟨_, hruns.tail step_return, rfl, rfl⟩

/-! ## What is on the stack -/

/-- The id of the rule whose body the nodes of a call are, if it is a referenced one. -/
def Origin.id? : Origin → Option String
  | .rule id => some id
  | _ => none

/-- The ids of the referenced rules whose calls are going on, the oldest first. -/
def ruleIds (calls : List Call) : List String := (calls.filterMap (·.origin.id?)).reverse

theorem ruleIds_rule_cons (id : String) (nodes : List Node) (outer : List Call) :
    ruleIds (⟨.rule id, nodes⟩ :: outer) = ruleIds outer ++ [id] := by
  simp [ruleIds, Origin.id?]

/-- The stack has the id of the first rule and then those of the rules whose calls are going on. No
id is there twice, and each but the first is the id of one of the rules. -/
structure Descent.IsSound (rules : List Rule) (first : Rule) (d : Descent σ) : Prop where
  stack_eq : d.stack = first.id :: ruleIds d.calls
  nodup : d.stack.Nodup
  known : ∀ id ∈ ruleIds d.calls, ∃ rule ∈ rules, rule.id = id

namespace Descent.IsSound

variable {first : Rule} {d d' : Descent σ}

theorem start (rules : List Rule) (first : Rule) (gathered : σ) :
    (Descent.start first gathered).IsSound rules first where
  stack_eq := rfl
  nodup := List.nodup_singleton _
  known _ h := nomatch h

theorem turn (h : d.IsSound rules first) (hturn : Turn v rules d d') : d'.IsSound rules first := by
  obtain ⟨hstack, hnodup, hknown⟩ := h
  cases hturn with
  | visit _ | skip _ _ _ | callElement => exact ⟨hstack, hnodup, hknown⟩
  | @callRule origin uri target nodes outer stack gathered htarget hnew hwalk =>
      have hids := ruleIds_rule_cons target.id target.body (⟨origin, nodes⟩ :: outer)
      refine ⟨?_, List.nodup_append'.2 ⟨hnodup, List.nodup_singleton _, by simpa using hnew⟩, ?_⟩
      · rw [hids]
        exact congrArg (· ++ [target.id]) hstack
      · intro id hid
        rw [hids] at hid
        rcases List.mem_append.1 hid with hid | hid
        · exact hknown id hid
        · rw [List.mem_singleton.1 hid]
          exact ⟨target, mem_of_resolve htarget, rfl⟩
  | @comeBack origin outer stack gathered =>
      cases origin with
      | start | element _ => exact ⟨hstack, hnodup, hknown⟩
      | rule id =>
          have hids := ruleIds_rule_cons id [] outer
          rw [hids] at hstack hknown
          -- The call is the innermost one, so its id is the last one on the stack.
          have hlast : stack = (first.id :: ruleIds outer) ++ [id] := hstack
          refine ⟨?_, hnodup.sublist (List.dropLast_sublist _), ?_⟩
          · rw [hlast]
            exact List.dropLast_concat
          · exact fun id' hid => hknown id' (List.mem_append_left _ hid)

theorem leadsTo (h : d.IsSound rules first) (hleads : LeadsTo v rules d d') :
    d'.IsSound rules first := by
  induction hleads with
  | refl => exact h
  | tail _ hstep ih => exact ih.turn (turn_of_step hstep)

theorem of_mem_tail (h : d.IsSound rules first) :
    ∀ id ∈ d.stack.tail, ∃ rule ∈ rules, rule.id = id := by
  rw [h.stack_eq]
  exact h.known

/-- The stack is no longer than there are ids of rules, and one. -/
theorem length_le (h : d.IsSound rules first) :
    d.stack.length ≤ (rules.map Rule.id).toFinset.card + 1 := by
  have hnodup : (ruleIds d.calls).Nodup := by
    have hcons := h.nodup
    rw [h.stack_eq] at hcons
    exact hcons.of_cons
  have hsubset : (ruleIds d.calls).toFinset ⊆ (rules.map Rule.id).toFinset := fun id hid =>
    List.mem_toFinset.2 (List.mem_map.2 (h.known id (List.mem_toFinset.1 hid)))
  rw [h.stack_eq, List.length_cons, ← List.toFinset_card_of_nodup hnodup]
  exact Nat.add_le_add_right (Finset.card_le_card hsubset) 1

end Descent.IsSound

/-! ## The outcomes of the recursive definitions -/

/-- A walk ends with the outcome of the call that it starts with. -/
theorem Visits.endsWith {first : Rule} {gathered after : σ} {outcome : Except Error Unit}
    (h : Visits v rules [first.id] first.body gathered outcome after) :
    Descent.EndsWith v rules (Descent.start first gathered) (outcome, after) := by
  have hruns := h.follows .start []
  cases outcome with
  | error e => exact hruns
  | ok _ =>
      have hreturn : Descent.LeadsTo v rules ⟨[⟨.start, []⟩], [first.id], after⟩
          ⟨[], [first.id], after⟩ := Descent.Turn.comeBack.leadsTo
      exact Descent.EndsWith.of_leadsTo (hruns.trans hreturn) ⟨_, .refl, rfl⟩

/-- The check visits what the walk over the references does. -/
theorem Visits.walk {path : List String} {nodes : List Node} {done after : List String}
    {outcome : Except Error Unit} (h : Visits checkVisitor rules path nodes done outcome after) :
    Walk rules path (references nodes) done outcome after := by
  induction h with
  | nil => exact .nil
  | leaf hn _ ih => rwa [references_leaf_cons hn]
  | elementFailed _ ih =>
      rw [references_element_cons]
      exact ih.append_failed _
  | element _ _ ihchildren ih =>
      rw [references_element_cons]
      exact ihchildren.append ih
  | unresolved herror => exact .unresolved herror
  | cyclic htarget hmem => exact .cyclic htarget hmem
  | skipped htarget hnew hskip _ ih =>
      exact .skipped htarget hnew (List.contains_iff_mem.1 hskip) ih
  | ruleFailed htarget hnew hwalk _ ih =>
      exact .failed htarget hnew (by simpa [checkVisitor] using hwalk) ih
  | rule htarget hnew hwalk _ _ ihbody ih =>
      exact .passed htarget hnew (by simpa [checkVisitor] using hwalk) ihbody ih

/-- The expansion appends the expanded nodes of a call to what the call has gathered before. -/
theorem Visits.map_expandNodes {path : List String} {nodes : List Node}
    {gathered after : List (List Node)} {outcome : Except Error Unit}
    (h : Visits expandVisitor rules path nodes gathered outcome after) (out : List Node)
    (outs : List (List Node)) (hgathered : gathered = out :: outs) :
    (expandNodes rules path nodes).map (fun body => (out ++ body) :: outs) =
      outcome.map (fun _ => after) := by
  induction h generalizing out outs with subst hgathered
  | nil =>
      rw [expandNodes_nil, Except.map, List.append_nil]
      rfl
  | @leaf _ n _ _ _ _ hn _ ih =>
      have hrest := ih (out ++ [n]) outs rfl
      rw [expandNodes_leaf_cons hn, map_map, ← hrest]
      simp only [List.append_assoc, List.singleton_append]
  | elementFailed _ ih =>
      have hchildren := map_eq_error.1 (ih [] (out :: outs) rfl)
      rw [expandNodes_element_cons, hchildren]
      rfl
  | @element _ container _ _ _ _ _ _ _ _ ihchildren ih =>
      obtain ⟨expanded, hchildren, rfl⟩ := map_eq_ok.1 (ihchildren [] (out :: outs) rfl)
      have hrest := ih (out ++ [.element container expanded]) outs rfl
      rw [expandNodes_element_cons, hchildren, Except.bind, map_map, ← hrest]
      simp only [List.append_assoc, List.singleton_append]
  | unresolved herror =>
      rw [expandNodes_ruleRef_cons, expandReference, herror]
      rfl
  | cyclic htarget hmem =>
      rw [expandNodes_ruleRef_cons, expandReference, htarget, Except.bind, if_pos hmem]
      rfl
  | skipped _ _ hskip _ _ => cases hskip
  | ruleFailed htarget hnew _ _ ih =>
      have hbody := map_eq_error.1 (ih [] (out :: outs) rfl)
      rw [expandNodes_ruleRef_cons, expandReference_of_notMem htarget hnew, hbody]
      rfl
  | rule htarget hnew _ _ _ ihbody ih =>
      obtain ⟨body, hbody, rfl⟩ := map_eq_ok.1 (ihbody [] (out :: outs) rfl)
      have hrest := ih (out ++ body) outs rfl
      rw [expandNodes_ruleRef_cons, expandReference_of_notMem htarget hnew, hbody, Except.bind,
        map_map, ← hrest]
      simp only [List.append_assoc]

end Visits

/-- On every list of rules and from every rule, the check and the expansion end, with the outcomes
of the recursive definitions. At each place on the way the stack has the ids of the rules whose
calls are going on, behind the id of the first rule. They are pairwise different and are ids of the
rules, so there are never more of them than the rules have ids. A call that does not fail returns,
and then the stack is what it was before the call. -/
theorem descent_ends (rules : List Rule) (first : Rule) :
    (∀ checked, Descent.EndsWith checkVisitor rules (.start first checked)
      (checkReferences rules [first.id] (references first.body) checked)) ∧
    (∃ outs, Descent.EndsWith expandVisitor rules (.start first [[]])
        ((expandRule rules first).map fun _ => (), outs) ∧
      ∀ body, expandRule rules first = .ok body → outs = [body]) ∧
    ∀ {σ : Type} (v : Visitor σ) (gathered : σ) (d : Descent σ),
      Descent.LeadsTo v rules (.start first gathered) d →
        d.stack = first.id :: ruleIds d.calls ∧ d.stack.Nodup ∧
        (∀ id ∈ d.stack.tail, ∃ rule ∈ rules, rule.id = id) ∧
        d.stack.length ≤ (rules.map Rule.id).toFinset.card + 1 ∧
        ∀ d', Descent.step v rules d = .inl d' → d.calls.length < d'.calls.length →
          (∃ e after, Descent.EndsWith v rules d' (.error e, after)) ∨
            ∃ d'', Descent.LeadsTo v rules d' d'' ∧ d''.calls = d'.calls.tail ∧
              d''.stack = d.stack := by
  refine ⟨fun checked => ?_, ?_, fun v gathered d hleads => ?_⟩
  · obtain ⟨outcome, after, hvisits⟩ :=
      exists_visits checkVisitor rules [first.id] first.body checked
    rw [hvisits.walk.checkReferences_eq]
    exact hvisits.endsWith
  · obtain ⟨outcome, after, hvisits⟩ :=
      exists_visits expandVisitor rules [first.id] first.body [[]]
    have hexpand : (expandRule rules first).map (fun body => [body]) = outcome.map fun _ => after :=
      hvisits.map_expandNodes [] [] rfl
    refine ⟨after, ?_, fun body hbody => ?_⟩
    · have hforget := congrArg (Except.map fun _ => ()) hexpand
      rw [map_map, map_map] at hforget
      rw [hforget]
      cases outcome with
      | error _ | ok _ => exact hvisits.endsWith
    · rw [hbody] at hexpand
      obtain ⟨_, -, hafter⟩ := map_eq_ok.1 hexpand.symm
      exact hafter
  · have hsound := (Descent.IsSound.start rules first gathered).leadsTo hleads
    refine ⟨hsound.stack_eq, hsound.nodup, hsound.of_mem_tail, hsound.length_le, ?_⟩
    exact fun d' hstep hcall => (Descent.turn_of_step hstep).exists_return hcall

/-- The check of the last rule of `tangledRules`, on its way in the rule that it refers to first. -/
def tangledDescent : Descent (List String) :=
  ⟨[⟨.rule "call", [.ruleRef "#name"]⟩, ⟨.start, [.element (.item none) [.ruleRef "#loop"]]⟩],
    ["loop", "call"], []⟩

theorem descent_ends_tangledRules :
    Descent.LeadsTo checkVisitor tangledRules (.start tangledRules[3] []) tangledDescent ∧
      tangledDescent.stack.Nodup ∧ tangledDescent.stack.length ≤
        (tangledRules.map Rule.id).toFinset.card + 1 := by
  have hleads : Descent.LeadsTo checkVisitor tangledRules (.start tangledRules[3] [])
      tangledDescent := .single rfl
  obtain ⟨-, -, hwalk⟩ := descent_ends tangledRules tangledRules[3]
  obtain ⟨-, hnodup, -, hlength, -⟩ := hwalk checkVisitor [] tangledDescent hleads
  exact ⟨hleads, hnodup, hlength⟩

end SpeechGrammar
