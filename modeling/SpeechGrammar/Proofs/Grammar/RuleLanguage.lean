import Mathlib
import SpeechGrammar.Proofs.Grammar.Expansion
import SpeechGrammar.Proofs.Grammar.Language

set_option autoImplicit false

/-!
# The languages of the rules

The rules of a grammar set up equations between languages: a reference stands for the body of its
rule. `ruleLanguage` is the least solution. An expansion has the language of what it expands
(`Expands.meansSame`), if no choice has raw text or a reference directly in it: the
body of a rule that is put there would be offered piece by piece.
-/

namespace SpeechGrammar

variable {rules : List Rule}

/-! ## The least solution -/

theorem itemLanguage_mono (occurs : Option Repeat) {L M : Language Word} (h : L ≤ M) :
    itemLanguage occurs L ≤ itemLanguage occurs M := by
  cases occurs with
  | none => exact h
  | some r =>
      rintro ws ⟨k, hk, hws⟩
      exact ⟨k, hk, pow_le_pow_left' h k hws⟩

mutual

theorem language_mono {refs refs' : String → Language Word} (h : refs ≤ refs') :
    ∀ n : Node, n.language refs ≤ n.language refs'
  | .literal _ | .token _ | .tag _ => le_refl _
  | .ruleRef uri => h uri
  | .element (.item occurs) children => itemLanguage_mono occurs (sequenceLanguage_mono h children)
  | .element .oneOf children => choiceLanguage_mono h children
  | .element (.foreign _ _) children => sequenceLanguage_mono h children

theorem sequenceLanguage_mono {refs refs' : String → Language Word} (h : refs ≤ refs') :
    ∀ ns : List Node, sequenceLanguage refs ns ≤ sequenceLanguage refs' ns
  | [] => le_refl _
  | n :: ns => mul_le_mul' (language_mono h n) (sequenceLanguage_mono h ns)

theorem choiceLanguage_mono {refs refs' : String → Language Word} (h : refs ≤ refs') :
    ∀ ns : List Node, choiceLanguage refs ns ≤ choiceLanguage refs' ns
  | [] => le_refl _
  | n :: ns => by
      rcases n.tag_or_ne_tag with ⟨c, rfl⟩ | hn
      · exact choiceLanguage_mono h ns
      · rw [choiceLanguage_cons hn, choiceLanguage_cons hn]
        exact add_le_add (language_mono h n) (choiceLanguage_mono h ns)

end

/-- What references stand for, one step of the equations on. -/
def referenceStep (rules : List Rule) (refs : String → Language Word) (uri : String) :
    Language Word :=
  match resolve rules uri with
  | .error _ => 0
  | .ok target => sequenceLanguage refs target.body

theorem referenceStep_mono (rules : List Rule) : Monotone (referenceStep rules) := by
  intro refs refs' h uri
  rw [referenceStep, referenceStep]
  cases resolve rules uri with
  | error e => exact le_refl _
  | ok target => exact sequenceLanguage_mono h target.body

def referenceHom (rules : List Rule) : (String → Language Word) →o (String → Language Word) :=
  ⟨referenceStep rules, referenceStep_mono rules⟩

/-- What the references of a grammar stand for: the least solution of the equations. -/
def ruleLanguage (rules : List Rule) : String → Language Word := OrderHom.lfp (referenceHom rules)

/-- A reference stands for the body of its rule. -/
theorem ruleLanguage_eq {uri : String} {target : Rule} (h : resolve rules uri = .ok target) :
    ruleLanguage rules uri = sequenceLanguage (ruleLanguage rules) target.body := by
  have hfix : referenceStep rules (ruleLanguage rules) = ruleLanguage rules :=
    OrderHom.map_lfp (referenceHom rules)
  rw [← congrFun hfix uri, referenceStep, h]

/-! ## Expansions -/

/-- The alternatives of a choice, none of them open, stay as they are. -/
theorem Expands.not_isOpen {ns ms : List Node} (h : Expands rules ns ms)
    (hns : ∀ n ∈ ns, ¬ n.IsOpen) : ∀ m ∈ ms, ¬ m.IsOpen := by
  induction h with
  | nil => exact hns
  | leaf _ _ ih =>
      rw [List.forall_mem_cons] at hns ⊢
      exact ⟨hns.1, ih hns.2⟩
  | ruleRef _ _ _ _ _ => exact absurd trivial (hns _ (List.mem_cons_self ..))
  | element _ _ _ ih =>
      rw [List.forall_mem_cons] at hns ⊢
      exact ⟨fun hopen => hopen, ih hns.2⟩

/-- What holds throughout the rules holds throughout an expansion, if an element keeps it when its
content is expanded. -/
theorem Expands.forall_mem_walkAll {P : Node → Prop} {ns ms : List Node}
    (h : Expands rules ns ms)
    (hP : ∀ container children expanded, Expands rules children expanded →
      P (.element container children) → P (.element container expanded))
    (hrules : ∀ rule ∈ rules, ∀ m ∈ walkAll rule.body, P m) (hns : ∀ m ∈ walkAll ns, P m) :
    ∀ m ∈ walkAll ms, P m := by
  induction h with
  | nil => exact hns
  | leaf _ _ ih =>
      rw [forall_mem_walkAll_cons] at hns ⊢
      exact ⟨hns.1, ih hns.2⟩
  | ruleRef huri _ _ ihbody ih =>
      rw [forall_mem_walkAll_cons] at hns
      rw [forall_mem_walkAll_append]
      exact ⟨ihbody (hrules _ (mem_of_resolve huri)), ih hns.2⟩
  | element hchildren _ ihchildren ih =>
      rw [forall_mem_walkAll_cons, forall_mem_walk_element] at hns ⊢
      obtain ⟨⟨helement, hbelow⟩, hrest⟩ := hns
      exact ⟨⟨hP _ _ _ hchildren helement, ihchildren hbelow⟩, ih hrest⟩

theorem Expands.repeatsOrdered {ns ms : List Node} (h : Expands rules ns ms)
    (hrules : ∀ rule ∈ rules, RepeatsOrdered rule.body) (hns : RepeatsOrdered ns) :
    RepeatsOrdered ms := by
  refine h.forall_mem_walkAll (fun container children expanded _ helement => ?_) hrules hns
  exact element_isOrdered_congr helement

theorem Expands.choicesClosed {ns ms : List Node} (h : Expands rules ns ms)
    (hrules : ∀ rule ∈ rules, ChoicesClosed rule.body) (hns : ChoicesClosed ns) :
    ChoicesClosed ms := by
  refine h.forall_mem_walkAll (fun container children expanded hexpands helement => ?_) hrules hns
  exact element_isClosedChoice_congr hexpands.not_isOpen helement

/-- An expansion means what it expands. -/
theorem Expands.meansSame {ns ms : List Node} (h : Expands rules ns ms)
    (hrules : ∀ rule ∈ rules, ChoicesClosed rule.body) (hns : ChoicesClosed ns) :
    MeansSame (ruleLanguage rules) ms ns := by
  induction h with
  | nil => exact .nil
  | leaf _ _ ih =>
      rw [ChoicesClosed, forall_mem_walkAll_cons] at hns
      exact (ih hns.2).cons rfl Iff.rfl
  | @ruleRef uri target body ns ms huri _ _ ihbody ih =>
      -- The expanded body means what the body means, and that is what the reference stands for.
      rw [ChoicesClosed, forall_mem_walkAll_cons] at hns
      have hbody := ihbody (hrules target (mem_of_resolve huri))
      refine (ih hns.2).append trivial ?_
      rw [hbody.sequence, Node.language, ruleLanguage_eq huri]
  | element _ _ ihchildren ih =>
      rw [ChoicesClosed, forall_mem_walkAll_cons, forall_mem_walk_element] at hns
      obtain ⟨⟨helement, hbelow⟩, hrest⟩ := hns
      exact (ih hrest).element (ihchildren hbelow) helement

end SpeechGrammar
