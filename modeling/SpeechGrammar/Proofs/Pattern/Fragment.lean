import SpeechGrammar.Pattern.Basic
import SpeechGrammar.Proofs.Grammar.Language
import SpeechGrammar.Proofs.Outcome
import SpeechGrammar.Proofs.Regex.Reading
import SpeechGrammar.Proofs.Regex.Spans

set_option autoImplicit false

/-!
# What a fragment matches

A fragment is a source, and the text that it matches is the written form of the words in the
language of its node. `Denotes` says so for one source, each way of putting fragments together
has its lemma, and `denotes_sequenceFragment` puts the lemmas together along the tree.
-/

namespace SpeechGrammar

open Text Regex

/-- The written form of a list of words. -/
def Separator.written (sep : Separator) (ws : List Word) : List Char :=
  ws.flatMap (sep.lead ++ ·)

/-- The text has `u` from position `i` to position `j`. -/
def StandsAt (text u : List Char) (i j : Nat) : Prop :=
  j = i + u.length ∧ u <+: text.drop i

theorem standsAt_nil {text : List Char} {i j : Nat} : StandsAt text [] i j ↔ j = i := by
  simp [StandsAt]

theorem standsAt_append {text u v : List Char} {i j : Nat} :
    StandsAt text (u ++ v) i j ↔ ∃ m, StandsAt text u i m ∧ StandsAt text v m j := by
  constructor
  · rintro ⟨rfl, rest, hrest⟩
    rw [List.append_assoc] at hrest
    refine ⟨i + u.length, ⟨rfl, _, hrest⟩, ?_, rest, ?_⟩
    · rw [List.length_append, Nat.add_assoc]
    · rw [← List.drop_drop, ← hrest, List.drop_left]
  · rintro ⟨m, ⟨rfl, rest, hrest⟩, rfl, rest', hrest'⟩
    refine ⟨by rw [List.length_append, Nat.add_assoc], rest', ?_⟩
    rw [← List.drop_drop, ← hrest, List.drop_left] at hrest'
    rw [List.append_assoc, hrest', hrest]

theorem standsAt_whole {text u : List Char} : StandsAt text u 0 text.length ↔ u = text := by
  constructor
  · rintro ⟨hlen, rest, hrest⟩
    rw [List.drop_zero] at hrest
    rw [Nat.zero_add] at hlen
    exact List.IsPrefix.eq_of_length ⟨rest, hrest⟩ hlen.symm
  · rintro rfl
    exact ⟨by simp, by simp⟩

/-! ## Expressions -/

theorem spansAll_append {text : List Char} (rs rs' : List Regex) (i j : Nat) :
    SpansAll text (rs ++ rs') i j ↔ ∃ m, SpansAll text rs i m ∧ SpansAll text rs' m j := by
  induction rs generalizing i with
  | nil => simp [SpansAll]
  | cons r rs ih =>
      simp only [List.cons_append, SpansAll, ih]
      constructor
      · rintro ⟨k, hk, m, hm, hj⟩
        exact ⟨m, ⟨k, hk, hm⟩, hj⟩
      · rintro ⟨m, ⟨k, hk, hm⟩, hj⟩
        exact ⟨k, hk, m, hm, hj⟩

theorem spans_concatOf {text : List Char} (rs : List Regex) (i j : Nat) :
    Spans text (concatOf rs) i j ↔ SpansAll text rs i j := by
  cases rs with
  | nil => rfl
  | cons r rs =>
      cases rs with
      | nil => simp [concatOf, SpansAll]
      | cons _ _ => rfl

theorem spans_choiceOf {text : List Char} {rs : List Regex} (hne : rs ≠ []) (i j : Nat) :
    Spans text (choiceOf rs) i j ↔ SpansAny text rs i j := by
  cases rs with
  | nil => exact absurd rfl hne
  | cons r rs =>
      cases rs with
      | nil => simp [choiceOf, SpansAny]
      | cons _ _ => rfl

theorem spansAll_chars {text : List Char} (u : List Char) (i j : Nat) :
    SpansAll text (u.map .char) i j ↔ StandsAt text u i j := by
  induction u generalizing i with
  | nil => rw [standsAt_nil]; rfl
  | cons c u ih =>
      have hchar : ∀ m, Spans text (.char c) i m ↔ StandsAt text [c] i m := by
        intro m
        rw [Spans, StandsAt, List.singleton_prefix_iff_head?_eq_some, List.head?_drop, and_comm]
        rfl
      rw [← List.singleton_append, standsAt_append]
      simp only [List.singleton_append, List.map_cons, SpansAll, ih, hchar]

/-! ## Languages -/

variable {sep : Separator}

/-- From one position to another the text is the written form of words in the language. -/
def Writes (sep : Separator) (L : Language Word) (text : List Char) (i j : Nat) : Prop :=
  ∃ ws ∈ L, StandsAt text (sep.written ws) i j

theorem writes_one {text : List Char} {i j : Nat} : Writes sep 1 text i j ↔ j = i := by
  constructor
  · rintro ⟨ws, rfl, h⟩
    exact standsAt_nil.1 h
  · intro h
    exact ⟨[], rfl, standsAt_nil.2 h⟩

theorem writes_mul {L M : Language Word} {text : List Char} {i j : Nat} :
    Writes sep (L * M) text i j ↔ ∃ m, Writes sep L text i m ∧ Writes sep M text m j := by
  constructor
  · rintro ⟨ws, hws, h⟩
    obtain ⟨us, hus, vs, hvs, rfl⟩ := Language.mem_mul.1 hws
    rw [Separator.written, List.flatMap_append] at h
    obtain ⟨m, hu, hv⟩ := standsAt_append.1 h
    exact ⟨m, ⟨us, hus, hu⟩, vs, hvs, hv⟩
  · rintro ⟨m, ⟨us, hus, hu⟩, vs, hvs, hv⟩
    refine ⟨us ++ vs, Language.append_mem_mul hus hvs, ?_⟩
    rw [Separator.written, List.flatMap_append]
    exact standsAt_append.2 ⟨m, hu, hv⟩

theorem writes_add {L M : Language Word} {text : List Char} {i j : Nat} :
    Writes sep (L + M) text i j ↔ Writes sep L text i j ∨ Writes sep M text i j := by
  constructor
  · rintro ⟨ws, hws | hws, h⟩
    · exact Or.inl ⟨ws, hws, h⟩
    · exact Or.inr ⟨ws, hws, h⟩
  · rintro (⟨ws, hws, h⟩ | ⟨ws, hws, h⟩)
    · exact ⟨ws, Or.inl hws, h⟩
    · exact ⟨ws, Or.inr hws, h⟩

/-- The source matches exactly the written forms of the words in the language. Only the empty
list of words has an empty source. -/
structure Denotes (sep : Separator) (source : List Char) (L : Language Word) : Prop where
  isWord : ∀ ws ∈ L, ∀ w ∈ ws, IsWord w
  eq_one : source = [] → L = 1
  reads : ∃ parts, Reads source parts ∧
    ∀ text i j, SpansAll text parts i j ↔ Writes sep L text i j

theorem Denotes.nil : Denotes sep [] 1 := by
  refine ⟨?_, fun _ => rfl, [], Reads.nil, fun text i j => writes_one.symm⟩
  rintro ws rfl w hw
  cases hw

theorem Denotes.append {source more : List Char} {L M : Language Word}
    (h : Denotes sep source L) (h' : Denotes sep more M) :
    Denotes sep (source ++ more) (L * M) := by
  obtain ⟨parts, hreads, hspans⟩ := h.reads
  obtain ⟨parts', hreads', hspans'⟩ := h'.reads
  refine ⟨?_, ?_, parts ++ parts', hreads.append hreads', ?_⟩
  · intro ws hws w hw
    obtain ⟨us, hus, vs, hvs, rfl⟩ := Language.mem_mul.1 hws
    rcases List.mem_append.1 hw with hw | hw
    · exact h.isWord us hus w hw
    · exact h'.isWord vs hvs w hw
  · intro hnil
    obtain ⟨hsource, hmore⟩ := List.append_eq_nil_iff.1 hnil
    rw [h.eq_one hsource, h'.eq_one hmore, one_mul]
  · intro text i j
    simp only [spansAll_append, hspans, hspans', writes_mul]

/-! ## Words -/

theorem escape_append (u v : List Char) : escape (u ++ v) = escape u ++ escape v :=
  List.flatMap_append

theorem escape_eq_nil_iff {u : List Char} : escape u = [] ↔ u = [] := by
  cases u with
  | nil => simp [escape]
  | cons c u => by_cases hc : isMeta c = true <;> simp [escape, escapeChar, hc]

theorem flatMap_escape (ws : List Word) :
    ws.flatMap (fun w => sep.lead ++ escape w) = escape (sep.written ws) := by
  have hlead : escape sep.lead = sep.lead := by
    cases sep with
    | space => rfl
    | adjacent => rfl
  have hword : ∀ w, escape (sep.lead ++ w) = sep.lead ++ escape w := fun w => by
    rw [escape_append, hlead]
  calc ws.flatMap (fun w => sep.lead ++ escape w)
      = ws.flatMap (fun w => escape (sep.lead ++ w)) := by simp only [hword]
    _ = escape (sep.written ws) := by
        rw [Separator.written, escape, List.flatMap_assoc]
        rfl

theorem Separator.written_eq_nil_iff {ws : List Word} (h : ∀ w ∈ ws, IsWord w) :
    sep.written ws = [] ↔ ws = [] := by
  cases ws with
  | nil => simp [written]
  | cons w ws => simp [written, (h w (by simp)).1]

/-- Escaped words match themselves only. -/
theorem denotes_escape {ws : List Word} (h : ∀ w ∈ ws, IsWord w) :
    Denotes sep (escape (sep.written ws)) {ws} := by
  refine ⟨?_, ?_, _, Reads.escape _, ?_⟩
  · rintro _ rfl w hw
    exact h w hw
  · intro hnil
    rw [(Separator.written_eq_nil_iff h).1 (escape_eq_nil_iff.1 hnil)]
    rfl
  · intro text i j
    rw [spansAll_chars]
    constructor
    · intro hu
      exact ⟨ws, rfl, hu⟩
    · rintro ⟨_, rfl, hu⟩
      exact hu

theorem wordFragment_eq (cs : List Char) :
    wordFragment sep cs = escape (sep.written (words cs)) := flatMap_escape _

theorem literalFragment_eq (cs : List Char) :
    (tokenChars cs).flatMap (wordFragment sep) =
      escape (sep.written ((tokenChars cs).flatMap words)) := by
  rw [← flatMap_escape, List.flatMap_assoc]
  rfl

theorem isWord_of_mem_literal {cs : List Char} {w : Word}
    (h : w ∈ (tokenChars cs).flatMap words) : IsWord w := by
  obtain ⟨token, -, hw⟩ := List.mem_flatMap.1 h
  exact isWord_of_mem_words hw

/-! ## Repetitions -/

theorem cuts_quantifier {r : Repeat} (h : r.isOrdered = true) :
    Cuts r.quantifier [.quantifier r.min.toNat (r.max.map UInt32.toNat)] := by
  have hcount : ∀ n : Nat, (toString n).toList = Nat.toDigits 10 n := fun n =>
    String.toList_ofList
  have hbrace : ∀ n : Nat, '\x7d' ∉ Nat.toDigits 10 n := fun n => notMem_toDigits n rfl
  obtain ⟨min, max⟩ := r
  -- One case for each form that a quantifier is written in.
  cases max with
  | none =>
      by_cases hzero : min = 0
      · simpa [Repeat.quantifier, hzero] using Cuts.anyNumber
      by_cases hone : min = 1
      · simpa [Repeat.quantifier, hone] using Cuts.atLeastOnce
      have hcuts := Cuts.braces (by simp [hbrace]) (readBounds?_atLeast min.toNat)
      simpa [Repeat.quantifier, hzero, hone, hcount] using hcuts
  | some max =>
      have hle : min.toNat ≤ max.toNat := by
        simpa [Repeat.isOrdered, UInt32.le_iff_toNat_le] using h
      by_cases hoption : min = 0 ∧ max = 1
      · simpa [Repeat.quantifier, hoption] using Cuts.optional
      by_cases hsame : min = max
      · have hcuts := Cuts.braces (hbrace _) (readBounds?_exact min.toNat)
        rw [hsame] at hoption hcuts ⊢
        simpa [Repeat.quantifier, hoption, hcount] using hcuts
      · have hcuts := Cuts.braces (by simp [hbrace])
          ((readBounds?_pair _ _).trans (if_pos hle))
        simpa [Repeat.quantifier, hoption, hsame, hcount] using hcuts

/-- Bounds that are not in order cannot be read. -/
theorem unreadable_quantifier {r : Repeat} (h : r.isOrdered = false) : Unreadable r.quantifier := by
  have hcount : ∀ n : Nat, (toString n).toList = Nat.toDigits 10 n := fun n =>
    String.toList_ofList
  have hbrace : ∀ n : Nat, '\x7d' ∉ Nat.toDigits 10 n := fun n => notMem_toDigits n rfl
  obtain ⟨min, max⟩ := r
  cases max with
  | none => cases h
  | some max =>
      have hlt : max.toNat < min.toNat := by
        simpa [Repeat.isOrdered, UInt32.lt_iff_toNat_lt] using h
      have hoption : ¬ (min = 0 ∧ max = 1) := by
        rintro ⟨rfl, -⟩
        exact absurd hlt (by simp)
      have hsame : min ≠ max := by
        rintro rfl
        exact Nat.lt_irrefl _ hlt
      have hbraces := unreadable_braces (by simp [hbrace])
        ((readBounds?_pair min.toNat max.toNat).trans (if_neg (Nat.not_le.2 hlt)))
      simpa [Repeat.quantifier, hoption, hsame, hcount] using hbraces

theorem allows_iff_admits {r : Repeat} (h : r.isOrdered = true) (k : Nat) :
    Allows r.min.toNat (r.max.map UInt32.toNat) k ↔ r.Admits k := by
  obtain ⟨min, max⟩ := r
  cases max with
  | none => simp [Allows, Repeat.Admits]
  | some max =>
      have hle : min.toNat ≤ max.toNat := by
        simpa [Repeat.isOrdered, UInt32.le_iff_toNat_le] using h
      simp only [Allows, Repeat.Admits, Option.map_some, Option.mem_some_iff, forall_eq']
      omega

/-- A repetition goes as often through the text as a power has factors. -/
theorem steps_iff_writes_pow {text : List Char} {R : Nat → Nat → Prop} {L : Language Word}
    (h : ∀ i j, R i j ↔ Writes sep L text i j) (k i j : Nat) :
    Steps R k i j ↔ Writes sep (L ^ k) text i j := by
  induction k generalizing i with
  | zero => rw [pow_zero, writes_one, Steps]
  | succ k ih => simp only [pow_succ', writes_mul, Steps, h, ih]

/-- What is read of a source is read as one part if it stands in a group. -/
theorem Regex.Reads.groupSource {source : List Char} {parts : List Regex} (h : Reads source parts) :
    Reads (groupSource source) [.group (concatOf parts)] := by
  have hbranches := ReadsBranches.intercalate (.cons h .nil) (List.cons_ne_nil _ _)
  rw [List.intercalate_singleton] at hbranches
  exact Reads.group hbranches

theorem Denotes.item {source : List Char} {L : Language Word} {occurs : Option Repeat}
    (h : Denotes sep source L) (hordered : ∀ r ∈ occurs, r.isOrdered = true) :
    Denotes sep (itemFragment occurs source) (itemLanguage occurs L) := by
  cases occurs with
  | none => exact h
  | some r =>
      have hr := hordered r rfl
      by_cases hsource : source = []
      · -- Nothing is written for nothing repeated, and its language is that of nothing.
        rw [h.eq_one hsource, itemLanguage_one hr, hsource]
        exact Denotes.nil
      obtain ⟨parts, hreads, hspans⟩ := h.reads
      have hspan : ∀ text i j, Spans text (.group (concatOf parts)) i j ↔
          Writes sep L text i j := fun text i j => (spans_concatOf parts i j).trans (hspans text i j)
      rw [itemFragment, if_neg (by simpa using hsource)]
      refine ⟨?_, ?_, _, hreads.groupSource.quantified (cuts_quantifier hr), ?_⟩
      · rintro ws ⟨k, -, hws⟩ w hw
        obtain ⟨factors, rfl, -, hfactors⟩ := Language.mem_pow.1 hws
        obtain ⟨vs, hvs, hw⟩ := List.mem_flatten.1 hw
        exact h.isWord vs (hfactors vs hvs) w hw
      · intro hnil
        simp [groupSource] at hnil
      · intro text i j
        have hpow : ∀ k, Steps (Spans text (.group (concatOf parts))) k i j ↔
            Writes sep (L ^ k) text i j := fun k => steps_iff_writes_pow (hspan text) k i j
        simp only [SpansAll, exists_eq_right']
        rw [Spans]
        simp only [hpow, allows_iff_admits hr]
        constructor
        · rintro ⟨k, hk, ws, hws, hj⟩
          exact ⟨ws, ⟨k, hk, hws⟩, hj⟩
        · rintro ⟨ws, ⟨k, hk, hws⟩, hj⟩
          exact ⟨k, hk, ws, hws, hj⟩

/-! ## Choices -/

/-- The expressions of alternatives match what one of the alternatives denotes. -/
theorem exists_branches {sources : List (List Char)} {Ls : List (Language Word)}
    (h : List.Forall₂ (Denotes sep) sources Ls) :
    ∃ branches, List.Forall₂ Reads sources branches ∧ ∀ text i j,
      SpansAny text (branches.map concatOf) i j ↔ Writes sep Ls.sum text i j := by
  induction h with
  | nil =>
      refine ⟨[], .nil, fun text i j => ?_⟩
      constructor
      · intro h
        cases h
      · rintro ⟨_, hws, -⟩
        cases hws
  | @cons source L sources Ls h _ ih =>
      obtain ⟨parts, hreads, hspans⟩ := h.reads
      obtain ⟨branches, hbranches, hany⟩ := ih
      refine ⟨parts :: branches, .cons hreads hbranches, fun text i j => ?_⟩
      rw [List.map_cons, SpansAny, spans_concatOf, hspans, hany, List.sum_cons, writes_add]

theorem isWord_of_mem_sum {sources : List (List Char)} {Ls : List (Language Word)}
    (h : List.Forall₂ (Denotes sep) sources Ls) : ∀ ws ∈ Ls.sum, ∀ w ∈ ws, IsWord w := by
  induction h with
  | nil =>
      intro ws hws
      cases hws
  | cons h _ ih =>
      rintro ws (hws | hws)
      · exact h.isWord ws hws
      · exact ih ws hws

theorem choiceFragment_ne_nil (sources : List (List Char)) : choiceFragment sources ≠ [] := by
  intro hnil
  cases sources with
  | nil => cases hnil
  | cons _ _ => cases hnil

theorem Denotes.choice {sources : List (List Char)} {Ls : List (Language Word)}
    (h : List.Forall₂ (Denotes sep) sources Ls) :
    Denotes sep (choiceFragment sources) Ls.sum := by
  have hword := isWord_of_mem_sum h
  obtain ⟨branches, hreads, hany⟩ := exists_branches h
  -- Without alternatives the source is the class without members, and the sum is empty.
  cases h with
  | nil =>
      cases hreads
      refine ⟨hword, fun hnil => absurd hnil (choiceFragment_ne_nil _), _, Reads.never, ?_⟩
      intro text i j
      rw [← hany]
      simp [SpansAll, Spans, SpansAny]
  | cons _ _ =>
      cases hreads with
      | cons hread hreads =>
          refine ⟨hword, fun hnil => absurd hnil (choiceFragment_ne_nil _), _,
            Reads.group (.intercalate (.cons hread hreads) (List.cons_ne_nil _ _)), ?_⟩
          intro text i j
          rw [← hany, ← spans_choiceOf (by simp)]
          simp [SpansAll, Spans]

/-! ## Fragments -/

/-- A node that is not a tag stands as an alternative in its choice. -/
theorem alternativeFragments_cons {n : Node} (hn : ∀ c, n ≠ .tag c) (ns : List Node) :
    alternativeFragments sep (n :: ns) = (n.fragment sep).bind fun first =>
      (alternativeFragments sep ns).map (first :: ·) := by
  cases n with
  | tag c => exact absurd rfl (hn c)
  | literal _ | token _ | ruleRef _ | element _ _ => rw [alternativeFragments]; simp

mutual

/-- The fragment of a node denotes the language of the node. -/
theorem denotes_fragment (refs : String → Language Word) : ∀ (n : Node) {source : List Char},
    (∀ m ∈ n.walk, m.IsOrdered) → n.fragment sep = .ok source →
      Denotes sep source (n.language refs)
  | .literal text, _, _, h => by
      cases h
      rw [literalFragment_eq]
      exact denotes_escape fun _ hw => isWord_of_mem_literal hw
  | .token text, _, _, h => by
      cases h
      rw [wordFragment_eq]
      exact denotes_escape fun _ hw => isWord_of_mem_words hw
  | .ruleRef _, _, _, h => by cases h
  | .tag _, _, _, h => by
      cases h
      exact Denotes.nil
  | .element (.item occurs) children, _, hordered, h => by
      obtain ⟨hitem, hchildren⟩ := forall_mem_walk_element.1 hordered
      obtain ⟨inner, hinner, rfl⟩ := map_eq_ok.1 h
      have hdenotes := denotes_sequenceFragment refs children hchildren hinner
      refine hdenotes.item ?_
      rintro r rfl
      exact hitem
  | .element .oneOf children, _, hordered, h => by
      obtain ⟨-, hchildren⟩ := forall_mem_walk_element.1 hordered
      obtain ⟨sources, hsources, rfl⟩ := map_eq_ok.1 h
      obtain ⟨Ls, hdenotes, hsum⟩ := denotes_alternativeFragments refs children hchildren hsources
      rw [Node.language, hsum]
      exact Denotes.choice hdenotes
  | .element (.foreign _ _) children, _, hordered, h => by
      obtain ⟨-, hchildren⟩ := forall_mem_walk_element.1 hordered
      exact denotes_sequenceFragment refs children hchildren h

/-- The fragment of a sequence denotes the language of the sequence. -/
theorem denotes_sequenceFragment (refs : String → Language Word) :
    ∀ (ns : List Node) {source : List Char}, RepeatsOrdered ns →
      sequenceFragment sep ns = .ok source → Denotes sep source (sequenceLanguage refs ns)
  | [], _, _, h => by
      cases h
      exact Denotes.nil
  | n :: ns, _, hordered, h => by
      obtain ⟨hn, hns⟩ := forall_mem_walkAll_cons.1 hordered
      obtain ⟨first, hfirst, hmap⟩ := bind_eq_ok.1 h
      obtain ⟨rest, hrest, rfl⟩ := map_eq_ok.1 hmap
      have hdenotes := denotes_fragment refs n hn hfirst
      exact hdenotes.append (denotes_sequenceFragment refs ns hns hrest)

/-- The fragments of alternatives denote languages whose union is the language of the choice. -/
theorem denotes_alternativeFragments (refs : String → Language Word) :
    ∀ (ns : List Node) {sources : List (List Char)}, RepeatsOrdered ns →
      alternativeFragments sep ns = .ok sources →
        ∃ Ls, List.Forall₂ (Denotes sep) sources Ls ∧ choiceLanguage refs ns = Ls.sum
  | [], _, _, h => by
      cases h
      exact ⟨[], .nil, rfl⟩
  | n :: ns, _, hordered, h => by
      obtain ⟨hn, hns⟩ := forall_mem_walkAll_cons.1 hordered
      -- A tag is skipped on both sides; all other nodes are treated alike.
      rcases n.tag_or_ne_tag with ⟨c, rfl⟩ | hnot
      · exact denotes_alternativeFragments refs ns hns h
      · rw [alternativeFragments_cons hnot] at h
        obtain ⟨first, hfirst, hmap⟩ := bind_eq_ok.1 h
        obtain ⟨rest, hrest, rfl⟩ := map_eq_ok.1 hmap
        obtain ⟨Ls, hdenotes, hsum⟩ := denotes_alternativeFragments refs ns hns hrest
        have hlanguage := denotes_fragment refs n hn hfirst
        refine ⟨n.language refs :: Ls, .cons hlanguage hdenotes, ?_⟩
        rw [choiceLanguage_cons hnot, hsum, List.sum_cons]

end

mutual

/-- A node has a fragment that is not empty if there is content below it. -/
theorem fragment_ne_nil_iff : ∀ (n : Node) {source : List Char}, n.fragment sep = .ok source →
    (source ≠ [] ↔ ∃ m ∈ n.walk, m.IsContent)
  | .literal text, _, h => by
      cases h
      rw [literalFragment_eq, Ne, escape_eq_nil_iff,
        Separator.written_eq_nil_iff fun _ hw => isWord_of_mem_literal hw]
      simp [Node.walk, Node.IsContent]
  | .token text, _, h => by
      cases h
      rw [wordFragment_eq, Ne, escape_eq_nil_iff,
        Separator.written_eq_nil_iff fun _ hw => isWord_of_mem_words hw]
      simp [Node.walk, Node.IsContent]
  | .ruleRef _, _, h => by cases h
  | .tag _, _, h => by
      cases h
      simp [Node.walk, Node.IsContent]
  | .element (.item occurs) children, _, h => by
      obtain ⟨inner, hinner, rfl⟩ := map_eq_ok.1 h
      have hchildren := sequenceFragment_ne_nil_iff children hinner
      have hitem : itemFragment occurs inner ≠ [] ↔ inner ≠ [] := by
        cases occurs with
        | none => rfl
        | some r => by_cases hnil : inner = [] <;> simp [itemFragment, groupSource, hnil]
      rw [hitem, hchildren]
      simp [mem_walk_element, Node.IsContent, HasContent]
  | .element .oneOf children, _, h => by
      obtain ⟨sources, -, rfl⟩ := map_eq_ok.1 h
      simp [mem_walk_element, Node.IsContent, choiceFragment_ne_nil]
  | .element (.foreign _ _) children, _, h => by
      rw [sequenceFragment_ne_nil_iff children h]
      simp [mem_walk_element, Node.IsContent, HasContent]

/-- A sequence has a fragment that is not empty if there is content in it. -/
theorem sequenceFragment_ne_nil_iff : ∀ (ns : List Node) {source : List Char},
    sequenceFragment sep ns = .ok source → (source ≠ [] ↔ HasContent ns)
  | [], _, h => by
      cases h
      simp [HasContent, walkAll]
  | n :: ns, _, h => by
      obtain ⟨first, hfirst, hmap⟩ := bind_eq_ok.1 h
      obtain ⟨rest, hrest, rfl⟩ := map_eq_ok.1 hmap
      have hfirst := fragment_ne_nil_iff n hfirst
      have hrest := sequenceFragment_ne_nil_iff ns hrest
      rw [hasContent_cons, ← hfirst, ← hrest, Ne, List.append_eq_nil_iff, not_and_or]

end

/-! ## Existence -/

mutual

/-- A node without references has a fragment. -/
theorem exists_fragment (sep : Separator) : ∀ (n : Node), (∀ m ∈ n.walk, m.uri? = none) →
    ∃ source, n.fragment sep = .ok source
  | .literal _, _ => ⟨_, rfl⟩
  | .token _, _ => ⟨_, rfl⟩
  | .ruleRef _, h => by simp [Node.walk, Node.uri?] at h
  | .tag _, _ => ⟨_, rfl⟩
  | .element (.item occurs) children, h => by
      obtain ⟨-, hchildren⟩ := forall_mem_walk_element.1 h
      obtain ⟨inner, hinner⟩ := exists_sequenceFragment sep children hchildren
      exact ⟨_, map_eq_ok.2 ⟨inner, hinner, rfl⟩⟩
  | .element .oneOf children, h => by
      obtain ⟨-, hchildren⟩ := forall_mem_walk_element.1 h
      obtain ⟨sources, hsources⟩ := exists_alternativeFragments sep children hchildren
      exact ⟨_, map_eq_ok.2 ⟨sources, hsources, rfl⟩⟩
  | .element (.foreign _ _) children, h => by
      obtain ⟨-, hchildren⟩ := forall_mem_walk_element.1 h
      exact exists_sequenceFragment sep children hchildren

/-- A sequence without references has a fragment. -/
theorem exists_sequenceFragment (sep : Separator) :
    ∀ (ns : List Node), (∀ m ∈ walkAll ns, m.uri? = none) →
      ∃ source, sequenceFragment sep ns = .ok source
  | [], _ => ⟨[], rfl⟩
  | n :: ns, h => by
      obtain ⟨hn, hns⟩ := forall_mem_walkAll_cons.1 h
      obtain ⟨first, hfirst⟩ := exists_fragment sep n hn
      obtain ⟨rest, hrest⟩ := exists_sequenceFragment sep ns hns
      exact ⟨_, bind_eq_ok.2 ⟨first, hfirst, map_eq_ok.2 ⟨rest, hrest, rfl⟩⟩⟩

/-- Alternatives without references have fragments. -/
theorem exists_alternativeFragments (sep : Separator) :
    ∀ (ns : List Node), (∀ m ∈ walkAll ns, m.uri? = none) →
      ∃ sources, alternativeFragments sep ns = .ok sources
  | [], _ => ⟨[], rfl⟩
  | n :: ns, h => by
      obtain ⟨hn, hns⟩ := forall_mem_walkAll_cons.1 h
      obtain ⟨rest, hrest⟩ := exists_alternativeFragments sep ns hns
      rcases n.tag_or_ne_tag with ⟨c, rfl⟩ | hnot
      · exact ⟨rest, hrest⟩
      · obtain ⟨first, hfirst⟩ := exists_fragment sep n hn
        refine ⟨first :: rest, ?_⟩
        rw [alternativeFragments_cons hnot]
        exact bind_eq_ok.2 ⟨first, hfirst, map_eq_ok.2 ⟨rest, hrest, rfl⟩⟩

end

end SpeechGrammar
