import SpeechGrammar.Proofs.Prepared

set_option autoImplicit false

/-!
# Edits keep to the guard

Only rules, tags, raw text and foreign elements stand directly in a grammar (`Grammar.IsAdmitted`).
An empty grammar is so, and every edit that succeeds keeps it (`Edit.isAdmitted_apply`). Such a
grammar can be appended child by child.
-/

namespace SpeechGrammar

/-- All children may stand directly in a grammar. -/
def Grammar.IsAdmitted (g : Grammar) : Prop := ∀ child ∈ g.children, Grammar.admits child = true

/-! ## Appending -/

theorem Grammar.append_eq_ok {g h : Grammar} {child : Child} :
    g.append child = .ok h ↔
      Grammar.admits child = true ∧ h = { g with children := g.children ++ [child] } := by
  rw [Grammar.append]
  split
  · rename_i hadmits
    simp [hadmits, eq_comm]
  · rename_i hadmits
    simp [hadmits]

/-- Appending succeeds if all children are admitted, and then puts them behind the others. -/
theorem Grammar.appendAll_eq_ok {g h : Grammar} {children : List Child} :
    g.appendAll children = .ok h ↔ (∀ child ∈ children, Grammar.admits child = true) ∧
      h = { g with children := g.children ++ children } := by
  induction children generalizing g with
  | nil =>
      have hnil : g.appendAll [] = .ok g := rfl
      rw [hnil]
      constructor
      · intro hok
        cases hok
        simp
      · rintro ⟨-, rfl⟩
        simp
  | cons child children ih =>
      have hcons : g.appendAll (child :: children) =
          (g.append child).bind fun next => next.appendAll children := rfl
      rw [hcons, bind_eq_ok, List.forall_mem_cons]
      simp only [append_eq_ok, ih]
      constructor
      · rintro ⟨_, ⟨hchild, rfl⟩, hchildren, rfl⟩
        exact ⟨⟨hchild, hchildren⟩, by simp⟩
      · rintro ⟨⟨hchild, hchildren⟩, rfl⟩
        exact ⟨_, ⟨hchild, rfl⟩, hchildren, by simp⟩

theorem Grammar.IsAdmitted.append {g h : Grammar} (hg : g.IsAdmitted) {child : Child}
    (happend : g.append child = .ok h) : h.IsAdmitted := by
  obtain ⟨hchild, rfl⟩ := append_eq_ok.1 happend
  exact List.forall_mem_append.2 ⟨hg, by simpa using hchild⟩

theorem Grammar.IsAdmitted.embed {g other h : Grammar} (hg : g.IsAdmitted)
    (hembed : g.embed other = .ok h) : h.IsAdmitted := by
  rw [Grammar.embed] at hembed
  split at hembed
  · obtain ⟨hother, rfl⟩ := appendAll_eq_ok.1 hembed
    exact List.forall_mem_append.2 ⟨hg, hother⟩
  · cases hembed

/-- Embedding a grammar with the same mode puts its children behind the others. -/
theorem Grammar.embed_eq_ok {g other : Grammar} (hmode : other.mode = g.mode)
    (hother : other.IsAdmitted) :
    g.embed other = .ok { g with children := g.children ++ other.children } := by
  rw [Grammar.embed, if_pos hmode]
  exact appendAll_eq_ok.2 ⟨hother, rfl⟩

/-! ## Reading -/

theorem isAdmitted_of_children_eq_nil {g : Grammar} (h : g.children = []) : g.IsAdmitted := by
  simp [Grammar.IsAdmitted, h]

theorem children_ofAttributes {e : Markup.Element} {g : Grammar}
    (h : Grammar.ofAttributes e = .ok g) : g.children = [] := by
  rw [Grammar.ofAttributes] at h
  split at h
  · cases h
    rfl
  · rw [Grammar.setModeName] at h
    split at h
    · cases h
    · cases h
      rfl

/-- A markup node is read as a child that may stand in a grammar. -/
def ReadsAs (node : Markup.Node) (child : Child) : Prop :=
  Child.ofMarkup node = .ok child ∧ Grammar.admits child = true

theorem Grammar.appendMarkup_eq_ok {g h : Grammar} {node : Markup.Node} :
    g.appendMarkup node = .ok h ↔
      ∃ child, ReadsAs node child ∧ h = { g with children := g.children ++ [child] } := by
  rw [Grammar.appendMarkup, bind_eq_ok]
  simp only [Grammar.append_eq_ok, ReadsAs, and_assoc]

/-- Markup nodes are appended one by one, up to the first that is not read. -/
theorem foldlM_appendMarkup_eq_ok {nodes : List Markup.Node} {g h : Grammar} :
    nodes.foldlM Grammar.appendMarkup g = .ok h ↔ ∃ children,
      List.Forall₂ ReadsAs nodes children ∧
        h = { g with children := g.children ++ children } := by
  induction nodes generalizing g with
  | nil =>
      have hnil : List.foldlM Grammar.appendMarkup g [] = .ok g := rfl
      simp [hnil, eq_comm]
  | cons node nodes ih =>
      have hcons : List.foldlM Grammar.appendMarkup g (node :: nodes) =
          (g.appendMarkup node).bind fun next => nodes.foldlM Grammar.appendMarkup next := rfl
      rw [hcons, bind_eq_ok]
      simp only [Grammar.appendMarkup_eq_ok, ih, List.forall₂_cons_left_iff]
      constructor
      · rintro ⟨_, ⟨child, hchild, rfl⟩, rest, hrest, rfl⟩
        exact ⟨child :: rest, ⟨child, rest, hchild, hrest, rfl⟩, by simp⟩
      · rintro ⟨_, ⟨child, rest, hchild, hrest, rfl⟩, rfl⟩
        exact ⟨_, ⟨child, hchild, rfl⟩, rest, hrest, by simp⟩

/-- An element is read as a grammar if its name, its namespace and its attributes are right and
each of its children is read. -/
theorem Grammar.ofMarkup_eq_ok_iff {e : Markup.Element} {g : Grammar} :
    Grammar.ofMarkup e = .ok g ↔ e.name = "grammar" ∧
      (∀ uri, e.attr? "xmlns" = some uri → uri = grammarNamespace) ∧
        ∃ start children, Grammar.ofAttributes e = .ok start ∧
          List.Forall₂ ReadsAs e.children children ∧ g = { start with children := children } := by
  -- The attributes leave no children, so those that are appended are all.
  have hfold : ∀ start, Grammar.ofAttributes e = .ok start →
      (e.children.foldlM Grammar.appendMarkup start = .ok g ↔ ∃ children,
        List.Forall₂ ReadsAs e.children children ∧ g = { start with children := children }) := by
    intro start hstart
    rw [foldlM_appendMarkup_eq_ok, children_ofAttributes hstart]
    rfl
  rw [Grammar.ofMarkup]
  by_cases hname : e.name = "grammar"
  · rw [if_neg (by simpa using hname)]
    cases hspace : (e.attr? "xmlns").filter (· ≠ grammarNamespace) with
    | some uri =>
        obtain ⟨huri, hne⟩ := Option.filter_eq_some_iff.1 hspace
        simp only [reduceCtorEq, false_iff]
        rintro ⟨-, hall, -⟩
        exact absurd (hall uri huri) (by simpa using hne)
    | none =>
        have hall : ∀ uri, e.attr? "xmlns" = some uri → uri = grammarNamespace := by
          simpa using Option.filter_eq_none_iff.1 hspace
        simp only [bind_eq_ok, hname, true_and]
        constructor
        · rintro ⟨start, hstart, hok⟩
          obtain ⟨children, hchildren, rfl⟩ := (hfold start hstart).1 hok
          exact ⟨hall, start, children, hstart, hchildren, rfl⟩
        · rintro ⟨-, start, children, hstart, hchildren, rfl⟩
          exact ⟨start, hstart, (hfold start hstart).2 ⟨children, hchildren, rfl⟩⟩
  · simp [hname]

/-- What holds of each child that is read and goes through the guard holds of all children of the
grammar that is read. -/
theorem forall_children_ofMarkup {P : Child → Prop} {e : Markup.Element} {g : Grammar}
    (h : Grammar.ofMarkup e = .ok g)
    (hread : ∀ node ∈ e.children, ∀ child, Child.ofMarkup node = .ok child →
      Grammar.admits child = true → P child) : ∀ child ∈ g.children, P child := by
  obtain ⟨-, -, start, children, -, hchildren, rfl⟩ := Grammar.ofMarkup_eq_ok_iff.1 h
  intro child hchild
  obtain ⟨i, hi, rfl⟩ := List.mem_iff_getElem.1 hchild
  have hlength := hchildren.length_eq
  obtain ⟨hchild, hadmits⟩ := hchildren.get (hlength ▸ hi) hi
  exact hread _ (List.get_mem _ _) _ hchild hadmits

/-- A grammar that is read from a document goes through the guard child by child. -/
theorem isAdmitted_ofMarkup {e : Markup.Element} {g : Grammar} (h : Grammar.ofMarkup e = .ok g) :
    g.IsAdmitted := forall_children_ofMarkup h fun _ _ _ _ hadmits => hadmits

theorem isAdmitted_parse {text : String} {g : Grammar} (h : Grammar.parse text = .ok g) :
    g.IsAdmitted := by
  rw [Grammar.parse] at h
  split at h
  · cases h
  · exact isAdmitted_ofMarkup h

/-! ## Passes -/

/-- What inlining leaves was there before, or is a rule that was there with its body expanded. -/
theorem Inlined.mem_or_expanded {root? : Option String} {children inlined : List Child}
    (h : Inlined root? children inlined) {child : Child} (hchild : child ∈ inlined) :
    child ∈ children ∨ ∃ rule body, Child.rule rule ∈ children ∧
      Expands (rulesOf children) rule.body body ∧ child = .rule { rule with body := body } := by
  cases h with
  | withoutRoot _ => exact .inl (List.mem_of_mem_filter hchild)
  | @withRoot before after rule body hchildren _ _ hbody =>
      have hexpands := (hbody body).2 rfl
      rw [List.mem_append, List.mem_cons] at hchild
      rcases hchild with hchild | rfl | hchild
      · exact .inl (hchildren ▸ List.mem_append_left _ (List.mem_of_mem_filter hchild))
      · exact .inr ⟨rule, body, by simp [hchildren], hexpands, rfl⟩
      · have hafter : child ∈ after := List.mem_of_mem_filter hchild
        exact .inl (hchildren ▸ List.mem_append_right _ (List.mem_cons_of_mem _ hafter))

theorem Grammar.IsAdmitted.inlined {g h : Grammar} (hg : g.IsAdmitted)
    (hinline : g.inlined = .ok h) : h.IsAdmitted := by
  obtain ⟨children, hchildren, rfl⟩ := map_eq_ok.1 hinline
  intro child hchild
  rcases (inlined_of_inlineChildren hchildren).mem_or_expanded hchild with hmem | ⟨_, _, -, -, rfl⟩
  · exact hg child hmem
  · rfl

theorem admits_of_mem_normalize {c d : Child} (hc : Grammar.admits c = true)
    (hd : d ∈ c.normalize) : Grammar.admits d = true := by
  cases c with
  | rule r =>
      obtain rfl := List.mem_singleton.1 hd
      rfl
  | node n =>
      obtain ⟨k, hk, rfl⟩ := List.mem_map.1 hd
      cases n with
      | literal text =>
          rw [Node.normalize] at hk
          split at hk
          · cases hk
          · obtain rfl := List.mem_singleton.1 hk
            rfl
      | tag content =>
          obtain rfl := List.mem_singleton.1 hk
          rfl
      | element container children =>
          obtain rfl := List.mem_singleton.1 hk
          cases container with
          | foreign _ _ => rfl
          | item _ | oneOf => cases hc
      | token _ | ruleRef _ => cases hc

theorem admits_tokenize {c : Child} (hc : Grammar.admits c = true) :
    Grammar.admits c.tokenize = true := by
  cases c with
  | rule r => rfl
  | node n =>
      cases n with
      | literal _ | tag _ => rfl
      | element container children =>
          cases container with
          | foreign _ _ => rfl
          | item _ | oneOf => cases hc
      | token _ | ruleRef _ => cases hc

theorem Grammar.IsAdmitted.normalized {g : Grammar} (hg : g.IsAdmitted) :
    g.normalized.IsAdmitted := by
  intro child hchild
  obtain ⟨c, hc, hmem⟩ := List.mem_flatMap.1 hchild
  exact admits_of_mem_normalize (hg c hc) hmem

theorem Grammar.IsAdmitted.tokenized {g : Grammar} (hg : g.IsAdmitted) :
    g.tokenized.IsAdmitted := by
  intro child hchild
  obtain ⟨c, hc, rfl⟩ := List.mem_map.1 hchild
  exact admits_tokenize (hg c hc)

/-! ## Edits -/

/-- An edit that succeeds leaves nothing in a grammar that may not stand there. -/
theorem Edit.isAdmitted_apply (edit : Edit) {g h : Grammar} (hg : g.IsAdmitted)
    (happly : edit.apply g = .ok h) : h.IsAdmitted := by
  cases edit with
  | reset =>
      cases happly
      exact isAdmitted_of_children_eq_nil rfl
  | load text => exact isAdmitted_parse happly
  | reload => exact isAdmitted_parse happly
  | setMode name =>
      rw [Edit.apply, Grammar.setModeName] at happly
      split at happly
      · cases happly
      · cases happly
        exact hg
  | setRoot _ | setLanguage _ | setBaseUri _ | setTagFormat _ =>
      cases happly
      exact hg
  | append child => exact hg.append happly
  | addRule rule =>
      cases happly
      exact List.forall_mem_append.2 ⟨hg, by simp [Grammar.admits]⟩
  | embed other => exact hg.embed happly
  | embedSelf => exact hg.embed happly
  | embedDocument text =>
      obtain ⟨other, -, hembed⟩ := bind_eq_ok.1 happly
      exact hg.embed hembed
  | inline => exact hg.inlined happly
  | normalize =>
      cases happly
      exact hg.normalized
  | tokenize =>
      cases happly
      exact hg.tokenized
  | prepare =>
      obtain ⟨⟨p, report⟩, hprepared, rfl⟩ := map_eq_ok.1 happly
      obtain ⟨inlined, hinline, hp⟩ := exists_inlined_eq_of_prepared hprepared
      rw [hp]
      exact (hg.inlined hinline).normalized.tokenized

end SpeechGrammar
