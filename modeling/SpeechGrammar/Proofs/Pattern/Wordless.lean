import SpeechGrammar.Proofs.Pattern.Compiled
import SpeechGrammar.Proofs.Regex.CharMap

set_option autoImplicit false

/-!
# Rules without words

A rule that offers no word can only accept the empty text. It does so exactly if there is a choice
in it and all of its body can be skipped (`compileRule_isMatch_iff_of_wordless`). A choice between
nothing is written as an empty group, and that is a source like any other.
-/

namespace SpeechGrammar

open Text Regex

/-! ## Nodes without words -/

/-- The node offers a word of its own. -/
def Node.OffersWord : Node → Prop
  | .literal text => (tokenChars text.toList).flatMap words ≠ []
  | .token text => words text.toList ≠ []
  | _ => False

/-- There is no word among the nodes, at any depth. -/
def Wordless (nodes : List Node) : Prop := ∀ n ∈ walkAll nodes, ¬ n.OffersWord

/-- The node is a choice. -/
def Node.IsChoice : Node → Prop
  | .element .oneOf _ => True
  | _ => False

mutual

/-- The node can be passed without a word, if words are all that it offers. -/
def Node.isSkippable : Node → Bool
  | .literal _ | .token _ | .tag _ => true
  | .ruleRef _ => false
  | .element (.item none) children | .element (.foreign _ _) children => areSkippable children
  | .element (.item (some r)) children => r.min == 0 || areSkippable children
  | .element .oneOf children => (skippableAlternatives children).any id

/-- All nodes of a list can be passed without a word. -/
def areSkippable : List Node → Bool
  | [] => true
  | n :: ns => n.isSkippable && areSkippable ns

/-- Which alternatives of a choice can be passed without a word; tags are not among them. -/
def skippableAlternatives : List Node → List Bool
  | [] => []
  | .tag _ :: ns => skippableAlternatives ns
  | n :: ns => n.isSkippable :: skippableAlternatives ns

end

/-! ## Expressions without characters -/

/-- The expression has no characters in it. -/
def Charless (r : Regex) : Prop := ∀ f, r.mapChars f = r

theorem charless_concatOf {rs : List Regex} (h : ∀ r ∈ rs, Charless r) : Charless (concatOf rs) := by
  intro f
  rw [mapChars_concatOf, List.map_congr_left fun r hr => h r hr f, List.map_id']

theorem charless_choiceOf {rs : List Regex} (h : ∀ r ∈ rs, Charless r) : Charless (choiceOf rs) := by
  intro f
  rw [mapChars_choiceOf, List.map_congr_left fun r hr => h r hr f, List.map_id']

theorem Charless.group {r : Regex} (h : Charless r) : Charless (.group r) := by
  intro f
  rw [mapChars, h f]

theorem Charless.repeated {r : Regex} (h : Charless r) (min : Nat) (max : Option Nat) :
    Charless (.repeated r min max) := by
  intro f
  rw [mapChars, h f]

/-- Steps that stay where they are. -/
theorem steps_of_stay {R : Nat → Nat → Prop} {p : Prop} (h : ∀ i j, R i j ↔ j = i ∧ p)
    (k i j : Nat) : Steps R k i j ↔ j = i ∧ (k = 0 ∨ p) := by
  induction k generalizing i with
  | zero => simp [Steps]
  | succ k ih =>
      simp only [Steps, h, ih]
      constructor
      · rintro ⟨_, ⟨rfl, hp⟩, rfl, -⟩
        exact ⟨rfl, .inr hp⟩
      · rintro ⟨rfl, hk⟩
        exact ⟨_, ⟨rfl, by simpa using hk⟩, rfl, .inr (by simpa using hk)⟩

/-- A repetition that stays where it is can be had if it is skipped or if what it repeats can. -/
theorem exists_allows_iff {min : Nat} {max : Option Nat} {p : Prop} :
    (∃ n, Allows min max n ∧ (n = 0 ∨ p)) ↔ min = 0 ∨ p := by
  constructor
  · rintro ⟨n, ⟨hmin, -⟩, rfl | hp⟩
    · exact .inl (Nat.le_zero.1 hmin)
    · exact .inr hp
  · intro h
    refine ⟨min, ⟨Nat.le_refl _, fun _ _ => .inl (Nat.le_refl _)⟩, h⟩

/-! ## Sources without words -/

/-- The source cannot be read or it is read as expressions without characters. These match the
empty text at most, and they do exactly if the source can be skipped. -/
inductive Skips (source : List Char) (skippable : Bool) : Prop where
  | unreadable (h : Unreadable source)
  | reads {parts : List Regex} (hreads : Reads source parts)
      (hchars : ∀ part ∈ parts, Charless part)
      (hspans : ∀ text i j, SpansAll text parts i j ↔ j = i ∧ skippable = true)

theorem Skips.nil : Skips [] true :=
  .reads Reads.nil (by simp) (by simp [SpansAll])

theorem Skips.append {source more : List Char} {b c : Bool} (h : Skips source b)
    (h' : Skips more c) : Skips (source ++ more) (b && c) := by
  cases h with
  | unreadable h => exact .unreadable (h.append more)
  | reads hreads hchars hspans =>
      cases h' with
      | unreadable h' => exact .unreadable (hreads.unreadable_append h')
      | reads hreads' hchars' hspans' =>
          refine .reads (hreads.append hreads') (List.forall_mem_append.2 ⟨hchars, hchars'⟩) ?_
          intro text i j
          simp only [spansAll_append, hspans, hspans', Bool.and_eq_true]
          constructor
          · rintro ⟨_, ⟨rfl, hb⟩, rfl, hc⟩
            exact ⟨rfl, hb, hc⟩
          · rintro ⟨rfl, hb, hc⟩
            exact ⟨_, ⟨rfl, hb⟩, rfl, hc⟩

/-- An empty source is read as no expression. -/
theorem Skips.eq_true_of_nil {b : Bool} (h : Skips [] b) : b = true := by
  cases h with
  | unreadable h => cases h []
  | @reads parts hreads _ hspans =>
      obtain ⟨tokens, hcut, hfold⟩ := hreads
      have htokens : tokens = [] := by simpa using hcut []
      have hfold := hfold {} []
      rw [htokens] at hfold
      have hparts : parts = [] := by simpa [pure] using hfold
      rw [hparts] at hspans
      exact ((hspans [] 0 0).1 rfl).2

theorem Skips.item {source : List Char} {b : Bool} (h : Skips source b) (r : Repeat) :
    Skips (itemFragment (some r) source) (r.min == 0 || b) := by
  by_cases hsource : source = []
  · -- No quantifier is written behind nothing, whatever its bounds.
    subst hsource
    rw [h.eq_true_of_nil, Bool.or_true]
    exact .nil
  rw [itemFragment, if_neg (by simpa using hsource)]
  cases h with
  | unreadable h =>
      have hopen := Cuts.openGroup.unreadable_append (h.append [')'])
      exact .unreadable (hopen.append _)
  | @reads parts hreads hchars hspans =>
      cases hordered : r.isOrdered with
      | false => exact .unreadable (hreads.groupSource.unreadable_append
          (unreadable_quantifier hordered))
      | true =>
          refine .reads (hreads.groupSource.quantified (cuts_quantifier hordered)) ?_ ?_
          · rw [List.forall_mem_singleton]
            exact (charless_concatOf hchars).group.repeated _ _
          · intro text i j
            have hsteps := steps_of_stay fun i j => (spans_concatOf parts i j).trans (hspans text i j)
            simp only [SpansAll, exists_eq_right', Spans, hsteps]
            simp only [and_left_comm (b := j = i), exists_and_left, exists_allows_iff]
            simp [← UInt32.toNat_inj]

/-- Sources with bars between them can be read if each of them can. -/
theorem skips_branches {sources : List (List Char)} {bs : List Bool}
    (h : List.Forall₂ Skips sources bs) :
    Unreadable (['|'].intercalate sources) ∨ ∃ branches : List (List Regex),
      List.Forall₂ Reads sources branches ∧ (∀ r ∈ branches.map concatOf, Charless r) ∧
        ∀ text i j, SpansAny text (branches.map concatOf) i j ↔ j = i ∧ bs.any id = true := by
  induction h with
  | nil => exact .inr ⟨[], .nil, by simp, by simp [SpansAny]⟩
  | @cons source b sources bs h hs ih =>
      have hshape : ∃ more, ['|'].intercalate (source :: sources) = source ++ more := by
        cases sources with
        | nil => exact ⟨[], by simp⟩
        | cons next sources => exact ⟨_, by rw [List.intercalate_cons_cons, List.append_assoc]⟩
      -- One alternative that cannot be read spoils the choice.
      cases h with
      | unreadable h =>
          obtain ⟨more, hmore⟩ := hshape
          exact .inl (hmore ▸ h.append more)
      | @reads parts hreads hchars hspans =>
          rcases ih with hmore | ⟨branches, hbranches, hcharless, hany⟩
          · refine .inl ?_
            cases hs with
            | nil => cases hmore []
            | cons _ _ =>
                rw [List.intercalate_cons_cons, List.append_assoc]
                exact hreads.unreadable_append (Cuts.bar.unreadable_append hmore)
          · refine .inr ⟨parts :: branches, .cons hreads hbranches, ?_, fun text i j => ?_⟩
            · rw [List.map_cons, List.forall_mem_cons]
              exact ⟨charless_concatOf hchars, hcharless⟩
            · rw [List.map_cons, SpansAny, spans_concatOf, hspans, hany, List.any_cons, id,
                Bool.or_eq_true, and_or_left]

theorem Skips.choice {sources : List (List Char)} {bs : List Bool}
    (h : List.Forall₂ Skips sources bs) : Skips (choiceFragment sources) (bs.any id) := by
  cases h with
  | nil => exact .reads Reads.never (by simp [Charless, mapChars]) (by simp [SpansAll, Spans])
  | @cons source b sources bs h hs =>
      have hsource : choiceFragment (source :: sources) =
          groupSource (['|'].intercalate (source :: sources)) := rfl
      rw [hsource]
      obtain hnot | ⟨branches, hreads, hchars, hany⟩ := skips_branches (.cons h hs)
      · exact .unreadable (Cuts.openGroup.unreadable_append (hnot.append [')']))
      · have hbranches := ReadsBranches.intercalate hreads (List.cons_ne_nil _ _)
        have hne : branches.map concatOf ≠ [] := by
          rintro hnil
          rw [List.map_eq_nil_iff.1 hnil] at hreads
          cases hreads
        refine .reads (Reads.group hbranches) ?_ fun text i j => ?_
        · rw [List.forall_mem_singleton]
          exact (charless_choiceOf hchars).group
        · rw [← hany text, ← spans_choiceOf hne]
          simp [SpansAll, Spans]

/-! ## Fragments -/

mutual

/-- The fragment of a node without words can be skipped if the node can. -/
theorem skips_fragment {sep : Separator} : ∀ (n : Node) {source : List Char},
    (∀ m ∈ n.walk, ¬ m.OffersWord) → n.fragment sep = .ok source → Skips source n.isSkippable
  | .literal text, _, hn, h => by
      cases h
      have hwords : (tokenChars text.toList).flatMap words = [] := by
        simpa [Node.walk, Node.OffersWord] using hn
      rw [literalFragment_eq, hwords]
      exact Skips.nil
  | .token text, _, hn, h => by
      cases h
      have hwords : words text.toList = [] := by simpa [Node.walk, Node.OffersWord] using hn
      rw [wordFragment_eq, hwords]
      exact Skips.nil
  | .ruleRef _, _, _, h => by cases h
  | .tag _, _, _, h => by
      cases h
      exact Skips.nil
  | .element (.item none) children, _, hn, h => by
      obtain ⟨inner, hinner, rfl⟩ := map_eq_ok.1 h
      exact skips_sequenceFragment children (forall_mem_walk_element.1 hn).2 hinner
  | .element (.item (some r)) children, _, hn, h => by
      obtain ⟨inner, hinner, rfl⟩ := map_eq_ok.1 h
      exact (skips_sequenceFragment children (forall_mem_walk_element.1 hn).2 hinner).item r
  | .element .oneOf children, _, hn, h => by
      obtain ⟨sources, hsources, rfl⟩ := map_eq_ok.1 h
      exact .choice (skips_alternativeFragments children (forall_mem_walk_element.1 hn).2 hsources)
  | .element (.foreign _ _) children, _, hn, h =>
      skips_sequenceFragment children (forall_mem_walk_element.1 hn).2 h

/-- The fragment of a sequence without words can be skipped if all its nodes can. -/
theorem skips_sequenceFragment {sep : Separator} : ∀ (ns : List Node) {source : List Char},
    Wordless ns → sequenceFragment sep ns = .ok source → Skips source (areSkippable ns)
  | [], _, _, h => by
      cases h
      exact Skips.nil
  | n :: ns, _, hwordless, h => by
      obtain ⟨hn, hns⟩ := forall_mem_walkAll_cons.1 hwordless
      obtain ⟨first, hfirst, hmap⟩ := bind_eq_ok.1 h
      obtain ⟨rest, hrest, rfl⟩ := map_eq_ok.1 hmap
      exact (skips_fragment n hn hfirst).append (skips_sequenceFragment ns hns hrest)

/-- The fragments of alternatives without words can be skipped as the alternatives can. -/
theorem skips_alternativeFragments {sep : Separator} :
    ∀ (ns : List Node) {sources : List (List Char)}, Wordless ns →
      alternativeFragments sep ns = .ok sources →
        List.Forall₂ Skips sources (skippableAlternatives ns)
  | [], _, _, h => by
      cases h
      exact .nil
  | n :: ns, _, hwordless, h => by
      obtain ⟨hn, hns⟩ := forall_mem_walkAll_cons.1 hwordless
      rcases n.tag_or_ne_tag with ⟨c, rfl⟩ | hnot
      · exact skips_alternativeFragments ns hns h
      · rw [alternativeFragments_cons hnot] at h
        obtain ⟨first, hfirst, hmap⟩ := bind_eq_ok.1 h
        obtain ⟨rest, hrest, rfl⟩ := map_eq_ok.1 hmap
        have hskippable : skippableAlternatives (n :: ns) =
            n.isSkippable :: skippableAlternatives ns := by
          rw [skippableAlternatives]
          exact hnot
        rw [hskippable]
        exact .cons (skips_fragment n hn hfirst) (skips_alternativeFragments ns hns hrest)

end

/-! ## Rules -/

/-- Where there is no word, what there is to match is a choice. -/
theorem hasContent_iff_of_wordless {ns : List Node} (h : Wordless ns) :
    HasContent ns ↔ ∃ n ∈ walkAll ns, n.IsChoice := by
  have hnode : ∀ n : Node, ¬ n.OffersWord → (n.IsContent ↔ n.IsChoice) := by
    intro n hn
    cases n with
    | literal _ | token _ => simpa [Node.IsContent, Node.IsChoice, Node.OffersWord] using hn
    | ruleRef _ | tag _ => rfl
    | element container _ =>
        cases container with
        | item _ | foreign _ _ => rfl
        | oneOf => simp [Node.IsContent, Node.IsChoice]
  constructor
  · rintro ⟨n, hn, hcontent⟩
    exact ⟨n, hn, (hnode n (h n hn)).1 hcontent⟩
  · rintro ⟨n, hn, hchoice⟩
    exact ⟨n, hn, (hnode n (h n hn)).2 hchoice⟩

/-- The pattern of a source without words matches the empty text at most. -/
theorem Skips.isMatch_iff {source : List Char} {b : Bool} (h : Skips source b)
    {options : CompileOptions} {pattern : Pattern}
    (hpattern : Pattern.ofSource ('^' :: (source ++ ['$'])) options = .ok pattern)
    (text : List Char) : pattern.isMatch text = true ↔ text = [] ∧ b = true := by
  cases h with
  | unreadable h =>
      rw [Pattern.ofSource, ofSource?_unreadable h] at hpattern
      cases hpattern
  | @reads parts hreads hchars hspans =>
      have hwhole : ∀ text, (concatOf (.atStart :: (parts ++ [.atEnd]))).isMatch text = true ↔
          text = [] ∧ b = true := fun text => by
        rw [isMatch_anchored_iff, hspans, List.length_eq_zero_iff]
      have hcharless : Charless (concatOf (.atStart :: (parts ++ [.atEnd]))) := by
        refine charless_concatOf (List.forall_mem_cons.2 ⟨fun _ => rfl,
          List.forall_mem_append.2 ⟨hchars, ?_⟩⟩)
        exact List.forall_mem_singleton.2 fun _ => rfl
      have hcases := ofSource_cases options (ofSource?_anchored hreads)
      rw [hpattern] at hcases
      simp only [Except.ok.injEq, reduceCtorEq, or_false] at hcases
      rw [hcases, Pattern.isMatch.eq_def]
      -- Folding the case of characters changes nothing where there are none.
      cases options.caseInsensitive with
      | false => exact hwhole text
      | true =>
          show ((concatOf _).mapChars _).isMatch _ = true ↔ _
          rw [hcharless, hwhole, List.map_eq_nil_iff]

/-- A rule without words accepts at most the empty text, whatever the mode and the options. It
accepts the empty text exactly if there is a choice in it and all of it can be skipped. -/
theorem compileRule_isMatch_iff_of_wordless {rule : Rule} (hwordless : Wordless rule.body)
    {mode : Option Mode} {options : CompileOptions} {pattern : Pattern}
    (hpattern : compileRule (some rule) mode options = .ok pattern) (text : List Char) :
    pattern.isMatch text = true ↔
      text = [] ∧ (∃ n ∈ walkAll rule.body, n.IsChoice) ∧ areSkippable rule.body = true := by
  obtain ⟨source, hsource, hpattern⟩ := bind_eq_ok.1 hpattern
  have hcontent := sequenceFragment_ne_nil_iff rule.body hsource
  rw [hasContent_iff_of_wordless hwordless] at hcontent
  rw [Pattern.ofFragment] at hpattern
  by_cases hnil : source = []
  · -- Nothing is written, so the pattern is the empty one.
    rw [hnil] at hpattern hcontent
    cases hpattern
    simp only [Pattern.isMatch, Bool.false_eq_true, false_iff]
    rintro ⟨-, hchoice, -⟩
    exact hcontent.2 hchoice rfl
  · rw [if_neg (by simpa using hnil)] at hpattern
    rw [(skips_sequenceFragment rule.body hwordless hsource).isMatch_iff hpattern]
    simp [hcontent.1 hnil]

/-- A choice whose only alternative is empty. -/
def blankChoiceRule : Rule :=
  { id := "blank", body := [.element .oneOf [.element (.item none) []]] }

theorem wordless_blankChoiceRule : Wordless blankChoiceRule.body := by
  simp [Wordless, blankChoiceRule, walkAll, Node.walk, Node.OffersWord]

theorem compileRule_blankChoiceRule : compileRule (some blankChoiceRule) none {} =
    .ok (.regex "^(?:)$".toList (.concat [.atStart, .group .empty, .atEnd]) false) := by
  have hfragment : blankChoiceRule.fragment (.ofMode none) = .ok "(?:)".toList := by
    decide +kernel
  exact compileRule_eq_ok hfragment (by decide) rfl (by decide +kernel) (by decide +kernel)

theorem compileRule_isMatch_iff_of_wordless_blankChoiceRule :
    Wordless blankChoiceRule.body ∧ ∃ pattern,
      compileRule (some blankChoiceRule) none {} = .ok pattern ∧
        pattern.isMatch [] = true ∧ pattern.isMatch " a".toList = false := by
  have hmatch := compileRule_isMatch_iff_of_wordless wordless_blankChoiceRule
    compileRule_blankChoiceRule
  have hchoice : ∃ n ∈ walkAll blankChoiceRule.body, n.IsChoice :=
    ⟨_, List.mem_cons_self .., trivial⟩
  refine ⟨wordless_blankChoiceRule, _, compileRule_blankChoiceRule, ?_, ?_⟩
  · exact (hmatch []).2 ⟨rfl, hchoice, rfl⟩
  · rw [Bool.eq_false_iff, Ne, hmatch]
    simp

/-- So it is not true that a rule without words accepts nothing. -/
theorem compileRule_isMatch_wordless_ne :
    ¬ ∀ (rule : Rule) (mode : Option Mode) (options : CompileOptions) (pattern : Pattern)
      (text : List Char), references rule.body = [] → Wordless rule.body →
        compileRule (some rule) mode options = .ok pattern → pattern.isMatch text = false := by
  intro h
  have hnot := h blankChoiceRule none {} _ [] rfl wordless_blankChoiceRule
    compileRule_blankChoiceRule
  exact absurd hnot (by decide +kernel)

end SpeechGrammar
