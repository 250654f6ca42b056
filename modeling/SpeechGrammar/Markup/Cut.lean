import SpeechGrammar.Text.Blank

set_option autoImplicit false

/-!
# Where a piece of markup ends

Three rules say where a piece of markup ends: at the first occurrence of a mark, at the first
`>` outside quotes, or at the first `>` that balances the `<` before it. Each function returns
what stands before the end and what follows it, and the lemmas say that nothing else is lost.
-/

namespace SpeechGrammar.Markup

/-- Put a character in front of the first part of a cut. -/
def consFirst (c : Char) (cut : List Char × List Char) : List Char × List Char :=
  (c :: cut.1, cut.2)

/-- Cut at the first occurrence of a mark. -/
def cutAt? (mark : List Char) : List Char → Option (List Char × List Char)
  | [] => none
  | c :: cs =>
      if mark.isPrefixOf (c :: cs) then some ([], (c :: cs).drop mark.length)
      else (cutAt? mark cs).map (consFirst c)

/-- Cut at the first `>` that is not between two equal quotes; the first argument is the quote
that is open. -/
def cutTag? : Option Char → List Char → Option (List Char × List Char)
  | _, [] => none
  | none, c :: cs =>
      if c = '>' then some ([], cs)
      else (cutTag? (if c = '"' ∨ c = '\x27' then some c else none) cs).map (consFirst c)
  | some q, c :: cs => (cutTag? (if c = q then none else some q) cs).map (consFirst c)

/-- Cut at the first `>` that is not the partner of a `<`; the first argument counts the `<`
that are open. -/
def cutBalanced? : Nat → List Char → Option (List Char × List Char)
  | _, [] => none
  | 0, c :: cs =>
      if c = '>' then some ([], cs)
      else (cutBalanced? (if c = '<' then 1 else 0) cs).map (consFirst c)
  | depth + 1, c :: cs =>
      (cutBalanced? (if c = '>' then depth else if c = '<' then depth + 2 else depth + 1) cs).map
        (consFirst c)

theorem cutAt?_eq_append {mark cs before after : List Char}
    (h : cutAt? mark cs = some (before, after)) : cs = before ++ mark ++ after := by
  induction cs generalizing before after with
  | nil => simp [cutAt?] at h
  | cons c cs ih =>
      rw [cutAt?] at h
      split at h
      · rename_i hm
        obtain ⟨rest, hrest⟩ := List.isPrefixOf_iff_prefix.1 hm
        simp only [Option.some.injEq, Prod.mk.injEq] at h
        obtain ⟨rfl, rfl⟩ := h
        rw [← hrest]
        simp
      · obtain ⟨⟨b, a⟩, hcut, heq⟩ := Option.map_eq_some_iff.1 h
        simp only [consFirst, Prod.mk.injEq] at heq
        obtain ⟨rfl, rfl⟩ := heq
        rw [ih hcut]
        simp

theorem cutTag?_eq_append {quote : Option Char} {cs before after : List Char}
    (h : cutTag? quote cs = some (before, after)) : cs = before ++ '>' :: after := by
  induction cs generalizing quote before after with
  | nil => simp [cutTag?] at h
  | cons c cs ih =>
      cases quote with
      | none =>
          rw [cutTag?] at h
          split at h
          · rename_i hc
            simp only [Option.some.injEq, Prod.mk.injEq] at h
            obtain ⟨rfl, rfl⟩ := h
            rw [hc]
            rfl
          · obtain ⟨⟨b, a⟩, hcut, heq⟩ := Option.map_eq_some_iff.1 h
            simp only [consFirst, Prod.mk.injEq] at heq
            obtain ⟨rfl, rfl⟩ := heq
            rw [ih hcut]
            rfl
      | some q =>
          rw [cutTag?] at h
          obtain ⟨⟨b, a⟩, hcut, heq⟩ := Option.map_eq_some_iff.1 h
          simp only [consFirst, Prod.mk.injEq] at heq
          obtain ⟨rfl, rfl⟩ := heq
          rw [ih hcut]
          rfl

theorem cutBalanced?_eq_append {depth : Nat} {cs before after : List Char}
    (h : cutBalanced? depth cs = some (before, after)) : cs = before ++ '>' :: after := by
  induction cs generalizing depth before after with
  | nil => cases depth <;> simp [cutBalanced?] at h
  | cons c cs ih =>
      cases depth with
      | zero =>
          rw [cutBalanced?] at h
          split at h
          · rename_i hc
            simp only [Option.some.injEq, Prod.mk.injEq] at h
            obtain ⟨rfl, rfl⟩ := h
            rw [hc]
            rfl
          · obtain ⟨⟨b, a⟩, hcut, heq⟩ := Option.map_eq_some_iff.1 h
            simp only [consFirst, Prod.mk.injEq] at heq
            obtain ⟨rfl, rfl⟩ := heq
            rw [ih hcut]
            rfl
      | succ depth =>
          rw [cutBalanced?] at h
          obtain ⟨⟨b, a⟩, hcut, heq⟩ := Option.map_eq_some_iff.1 h
          simp only [consFirst, Prod.mk.injEq] at heq
          obtain ⟨rfl, rfl⟩ := heq
          rw [ih hcut]
          rfl

end SpeechGrammar.Markup
