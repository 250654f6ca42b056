import SpeechGrammar.Proofs.Grammar.Edit

set_option autoImplicit false

/-!
# Edits in place are all or nothing

Embedding appends children one by one, and an error on the way would leave some of them behind. It
does not come to that: what stands in a grammar that edits have built may stand there
(`Grammar.Reachable.isAdmitted`), so the guard lets all of it into another grammar. Inlining drops
no rule before it knows of every error, and the other edits compute the new grammar first. An edit
in place ends with the new grammar or with the old one (`Edit.run_eq`).
-/

namespace SpeechGrammar

/-! ## The guard holds in place -/

theorem Grammar.admits_iff {child : Child} :
    Grammar.admits child = true ↔
      (∃ rule, child = .rule rule) ∨ (∃ content, child = .node (.tag content)) ∨
        (∃ text, child = .node (.literal text)) ∨
          ∃ name attributes children,
            child = .node (.element (.foreign name attributes) children) := by
  cases child with
  | rule rule => simp [Grammar.admits]
  | node n =>
      cases n with
      | literal _ | token _ | ruleRef _ | tag _ => simp [Grammar.admits]
      | element container _ => cases container <;> simp [Grammar.admits]

theorem Grammar.IsAdmitted.appendInPlace {g : Grammar} (hg : g.IsAdmitted)
    (children : List Child) : (g.appendInPlace children).2.IsAdmitted := by
  induction children generalizing g with
  | nil => exact hg
  | cons child children ih =>
      rw [Grammar.appendInPlace]
      cases happend : g.append child with
      | error e => exact hg
      | ok next => exact ih (hg.append happend)

theorem Grammar.IsAdmitted.embedInPlace {g : Grammar} (hg : g.IsAdmitted) (other : Grammar) :
    (g.embedInPlace other).2.IsAdmitted := by
  rw [Grammar.embedInPlace]
  split
  · exact hg.appendInPlace other.children
  · exact hg

theorem Grammar.IsAdmitted.replaceBy {g : Grammar} (hg : g.IsAdmitted) {r : Except Error Grammar}
    (hr : ∀ h, r = .ok h → h.IsAdmitted) : (g.replaceBy r).2.IsAdmitted := by
  cases r with
  | error e => exact hg
  | ok h => exact hr h rfl

/-- An edit in place leaves nothing in a grammar that may not stand there, whether it succeeds or
not. -/
theorem Edit.isAdmitted_run (edit : Edit) {g : Grammar} (hg : g.IsAdmitted) :
    (edit.run g).2.IsAdmitted := by
  cases edit with
  | embed other => exact hg.embedInPlace other
  | embedSelf => exact hg.embedInPlace g
  | embedDocument text =>
      rw [Edit.run]
      cases Grammar.parse text with
      | error e => exact hg
      | ok other => exact hg.embedInPlace other
  | inline =>
      rw [Edit.run, Grammar.inlineInPlace_eq]
      exact hg.replaceBy fun h happly => Edit.isAdmitted_apply .inline hg happly
  | reset | load _ | reload | setMode _ | setRoot _ | setLanguage _ | setBaseUri _
  | setTagFormat _ | append _ | addRule _ | normalize | tokenize | prepare =>
      exact hg.replaceBy fun h happly => Edit.isAdmitted_apply _ hg happly

/-! ## All or nothing -/

/-- Children that the guard lets in are all appended. -/
theorem Grammar.appendInPlace_eq {children : List Child}
    (h : ∀ child ∈ children, Grammar.admits child = true) (g : Grammar) :
    g.appendInPlace children = (.ok (), { g with children := g.children ++ children }) := by
  induction children generalizing g with
  | nil => simp [Grammar.appendInPlace]
  | cons child children ih =>
      rw [List.forall_mem_cons] at h
      rw [Grammar.appendInPlace, Grammar.append_eq_ok.2 ⟨h.1, rfl⟩]
      dsimp only
      rw [ih h.2]
      simp

/-- Embedding in place is decided by the modes alone. -/
theorem Grammar.embedInPlace_eq {other : Grammar} (hother : other.IsAdmitted) (g : Grammar) :
    g.embedInPlace other =
      if other.mode = g.mode then (.ok (), { g with children := g.children ++ other.children })
      else (.error (.modeMismatch g.mode other.mode), g) := by
  rw [Grammar.embedInPlace, Grammar.appendInPlace_eq hother]

theorem Grammar.embedInPlace_eq_replaceBy {other : Grammar} (hother : other.IsAdmitted)
    (g : Grammar) : g.embedInPlace other = g.replaceBy (g.embed other) := by
  rw [Grammar.embedInPlace_eq hother]
  by_cases hmode : other.mode = g.mode
  · rw [if_pos hmode, Grammar.embed_eq_ok hmode hother, Grammar.replaceBy]
  · rw [if_neg hmode, Grammar.embed, if_neg hmode, Grammar.replaceBy]

/-- An edit in place gives the grammar that the edit computes, or changes nothing. -/
theorem Edit.run_eq (edit : Edit) {g : Grammar} (hg : g.IsAdmitted)
    (hother : ∀ other, edit = .embed other → other.IsAdmitted) :
    edit.run g = g.replaceBy (edit.apply g) := by
  cases edit with
  | embed other => exact Grammar.embedInPlace_eq_replaceBy (hother other rfl) g
  | embedSelf => exact Grammar.embedInPlace_eq_replaceBy hg g
  | embedDocument text =>
      rw [Edit.run, Edit.apply, Grammar.embedDocument]
      cases hparse : Grammar.parse text with
      | error e => rfl
      | ok other => exact Grammar.embedInPlace_eq_replaceBy (isAdmitted_parse hparse) g
  | inline => exact g.inlineInPlace_eq
  | reset | load _ | reload | setMode _ | setRoot _ | setLanguage _ | setBaseUri _
  | setTagFormat _ | append _ | addRule _ | normalize | tokenize | prepare => rfl

/-! ## Grammars that edits build -/

/-- A grammar that edits in place make of an empty one. What they embed has been built the same
way. -/
inductive Grammar.Reachable : Grammar → Prop
  | empty : Reachable {}
  | edit {g : Grammar} (edit : Edit) (hg : Reachable g)
      (hother : ∀ other, edit = .embed other → Reachable other) : Reachable (edit.run g).2

theorem Grammar.Reachable.isAdmitted {g : Grammar} (h : g.Reachable) : g.IsAdmitted := by
  induction h with
  | empty => exact isAdmitted_of_children_eq_nil rfl
  | edit edit _ _ ih _ => exact edit.isAdmitted_run ih

/-- In a grammar that edits build stand only rules, tags, raw text and foreign elements. Embedding
such a grammar in another fails if the modes differ, and otherwise appends all its children and
changes nothing else. An edit that fails leaves the grammar as it was. -/
theorem Grammar.Reachable.run_all_or_nothing {g : Grammar} (hg : g.Reachable) :
    (∀ child ∈ g.children,
      (∃ rule, child = .rule rule) ∨ (∃ content, child = .node (.tag content)) ∨
        (∃ text, child = .node (.literal text)) ∨
          ∃ name attributes children,
            child = .node (.element (.foreign name attributes) children)) ∧
      (∀ other : Grammar, other.Reachable → (Edit.embed other).run g =
        if other.mode = g.mode then (.ok (), { g with children := g.children ++ other.children })
        else (.error (.modeMismatch g.mode other.mode), g)) ∧
      ∀ edit : Edit, (∀ other, edit = .embed other → other.Reachable) →
        ∀ e, (edit.run g).1 = .error e → (edit.run g).2 = g := by
  refine ⟨fun child hchild => Grammar.admits_iff.1 (hg.isAdmitted child hchild),
    fun other hother => Grammar.embedInPlace_eq hother.isAdmitted g, ?_⟩
  intro edit hother e he
  rw [edit.run_eq hg.isAdmitted fun other h => (hother other h).isAdmitted] at he ⊢
  cases happly : edit.apply g with
  | error e' => rfl
  | ok h =>
      rw [happly] at he
      cases he

/-- A grammar for spoken words, with a tag and a rule. -/
def spokenGrammar : Grammar :=
  { mode := some .voice
    children := [.node (.tag "v1"), .rule { id := "name", body := [.token "bob"] }] }

theorem reachable_spokenGrammar : spokenGrammar.Reachable := by
  have hvoice : Grammar.Reachable { mode := some .voice } := .edit (.setMode "voice") .empty (by simp)
  have htag : Grammar.Reachable { mode := some .voice, children := [.node (.tag "v1")] } :=
    .edit (.append (.node (.tag "v1"))) hvoice (by simp)
  exact .edit (.addRule { id := "name", body := [.token "bob"] }) htag (by simp)

/-- A grammar for keys. -/
def keyGrammar : Grammar := { mode := some .dtmf, children := [.rule { id := "pin" }] }

theorem reachable_keyGrammar : keyGrammar.Reachable := by
  have hdtmf : Grammar.Reachable { mode := some .dtmf } := .edit (.setMode "dtmf") .empty (by simp)
  exact .edit (.addRule { id := "pin" }) hdtmf (by simp)

theorem run_all_or_nothing_spokenGrammar :
    spokenGrammar.Reachable ∧ keyGrammar.Reachable ∧
      (Edit.embed keyGrammar).run spokenGrammar =
        (.error (.modeMismatch (some .voice) (some .dtmf)), spokenGrammar) ∧
      (Edit.embed spokenGrammar).run spokenGrammar =
        (.ok (), { spokenGrammar with
          children := spokenGrammar.children ++ spokenGrammar.children }) ∧
      ((Edit.append (.node (.token "ann"))).run spokenGrammar).1 =
        .error (.invalidChild (.topLevel "token")) ∧
      ((Edit.append (.node (.token "ann"))).run spokenGrammar).2 = spokenGrammar := by
  obtain ⟨-, hembed, hfail⟩ := reachable_spokenGrammar.run_all_or_nothing
  have happend : ((Edit.append (.node (.token "ann"))).run spokenGrammar).1 =
      .error (.invalidChild (.topLevel "token")) := rfl
  exact ⟨reachable_spokenGrammar, reachable_keyGrammar, hembed keyGrammar reachable_keyGrammar,
    hembed spokenGrammar reachable_spokenGrammar, happend, hfail _ (by simp) _ happend⟩

end SpeechGrammar
