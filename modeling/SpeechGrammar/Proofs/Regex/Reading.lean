import SpeechGrammar.Proofs.Text.Decimal
import SpeechGrammar.Regex.Source

set_option autoImplicit false

/-!
# Reading back what is written

The source of a pattern is written piece by piece. `Reads source parts` says that a piece is read
as the given parts of a sequence, whatever stands behind it and whichever groups are open. The
pieces that patterns are made of are read in this way, and `ofSource?_anchored` puts them
together: a source between the two ends of the text is read as the sequence of its parts.
-/

namespace SpeechGrammar.Regex

open SpeechGrammar.Text

/-! ## Cutting a source into tokens -/

theorem tokensFrom?_eq_drop (skip : Nat) (cs : List Char) :
    tokensFrom? skip cs = tokens? (cs.drop skip) := by
  induction skip generalizing cs with
  | zero => rfl
  | succ skip ih =>
      cases cs with
      | nil => rfl
      | cons c cs => rw [tokensFrom?, ih, List.drop_succ_cons]

@[simp] theorem tokens?_nil : tokens? [] = some [] := rfl

/-- Behind a token the reading goes on. -/
theorem tokens?_of_tokenAt? {c : Char} {more rest : List Char} {token : Token}
    (h : tokenAt? c (more ++ rest) = some (token, more.length)) :
    tokens? (c :: (more ++ rest)) = (tokens? rest).map (token :: ·) := by
  rw [tokens?, tokensFrom?, h]
  simp only [tokensFrom?_eq_drop, List.drop_left]

/-- The source is cut into the tokens, whatever stands behind it. -/
def Cuts (source : List Char) (tokens : List Token) : Prop :=
  ∀ rest, tokens? (source ++ rest) = (tokens? rest).map (tokens ++ ·)

theorem Cuts.nil : Cuts [] [] := by
  intro rest
  simp

theorem Cuts.single {c : Char} {more : List Char} {token : Token}
    (h : ∀ rest, tokenAt? c (more ++ rest) = some (token, more.length)) :
    Cuts (c :: more) [token] :=
  fun rest => tokens?_of_tokenAt? (h rest)

theorem Cuts.append {source more : List Char} {tokens tokens' : List Token}
    (h : Cuts source tokens) (h' : Cuts more tokens') :
    Cuts (source ++ more) (tokens ++ tokens') := by
  intro rest
  rw [List.append_assoc, h, h', Option.map_map]
  congr 1
  funext ts
  simp

/-! ## Pieces of a sequence -/

/-- The source is read as the parts, whatever stands behind it and whichever groups are open. -/
def Reads (source : List Char) (parts : List Regex) : Prop :=
  ∃ tokens, Cuts source tokens ∧ ∀ (g : OpenGroup) (outer : List OpenGroup),
    tokens.foldlM assemble (g :: outer) =
      some ({ g with parts := parts.reverse ++ g.parts } :: outer)

theorem Reads.nil : Reads [] [] := ⟨[], Cuts.nil, fun _ _ => rfl⟩

theorem Reads.append {source more : List Char} {parts parts' : List Regex}
    (h : Reads source parts) (h' : Reads more parts') :
    Reads (source ++ more) (parts ++ parts') := by
  obtain ⟨tokens, hcut, hfold⟩ := h
  obtain ⟨tokens', hcut', hfold'⟩ := h'
  refine ⟨tokens ++ tokens', hcut.append hcut', ?_⟩
  intro g outer
  rw [List.foldlM_append, hfold]
  simp only [Option.bind_eq_bind, Option.bind_some, hfold', List.reverse_append, List.append_assoc]

/-- A single token that adds a part to the current branch. -/
theorem Reads.single {c : Char} {more : List Char} {part : Regex} (token : Token)
    (h : ∀ rest, tokenAt? c (more ++ rest) = some (token, more.length))
    (hassemble : ∀ g outer, assemble (g :: outer) token = some (g.push part :: outer)) :
    Reads (c :: more) [part] := by
  refine ⟨[token], Cuts.single h, ?_⟩
  intro g outer
  rw [List.foldlM_cons, hassemble]
  rfl

theorem Reads.atStart : Reads ['^'] [.atStart] :=
  Reads.single .atStart (fun _ => rfl) fun _ _ => rfl

theorem Reads.atEnd : Reads ['$'] [.atEnd] :=
  Reads.single .atEnd (fun _ => rfl) fun _ _ => rfl

theorem tokenAt?_of_not_isMeta {c : Char} (h : isMeta c = false) (cs : List Char) :
    tokenAt? c cs = some (.char c, 0) := by
  unfold tokenAt?
  split <;> first | rfl | exact absurd h (by decide)

theorem Reads.escapeChar (c : Char) : Reads (escapeChar c) [.char c] := by
  unfold Regex.escapeChar
  by_cases h : isMeta c = true
  · rw [if_pos h]
    refine Reads.single (.char c) (fun rest => ?_) fun _ _ => rfl
    simp [tokenAt?, h]
  · rw [if_neg h]
    exact Reads.single (.char c) (tokenAt?_of_not_isMeta (by simpa using h)) fun _ _ => rfl

/-- In an escaped text every character stands for itself. -/
theorem Reads.escape (cs : List Char) : Reads (escape cs) (cs.map .char) := by
  induction cs with
  | nil => exact Reads.nil
  | cons c cs ih => exact (Reads.escapeChar c).append ih

theorem Reads.never : Reads neverSource [.never] := by
  have hsource : neverSource = '[' :: neverSource.tail := rfl
  rw [hsource]
  refine Reads.single .never (fun rest => ?_) fun _ _ => rfl
  have hhead : neverSource.isPrefixOf ('[' :: (neverSource.tail ++ rest)) = true := by
    rw [List.isPrefixOf_iff_prefix, ← List.cons_append, ← hsource]
    exact List.prefix_append _ _
  simp only [tokenAt?, hhead, if_true]
  rfl

/-! ## Groups -/

/-- The source is read as the branches of a group that has just been opened or has just ended a
branch. -/
def ReadsBranches (source : List Char) (branches : List Regex) : Prop :=
  ∃ tokens, Cuts source tokens ∧ ∀ (done : List Regex) (outer : List OpenGroup),
    ∃ g : OpenGroup, tokens.foldlM assemble (⟨done, []⟩ :: outer) = some (g :: outer) ∧
      (concatOf g.parts.reverse :: g.branches).reverse = done.reverse ++ branches

theorem Cuts.bar : Cuts ['|'] [.bar] := Cuts.single fun _ => rfl

/-- Sources with bars between them are read as branches. -/
theorem ReadsBranches.intercalate {sources : List (List Char)} {parts : List (List Regex)}
    (h : List.Forall₂ Reads sources parts) (hne : sources ≠ []) :
    ReadsBranches (['|'].intercalate sources) (parts.map concatOf) := by
  induction h with
  | nil => exact absurd rfl hne
  | @cons source ps sources parts hhead htail ih =>
      obtain ⟨tokens, hcut, hfold⟩ := hhead
      cases htail with
      | nil =>
          refine ⟨tokens, by simpa using hcut, fun done outer => ⟨_, hfold _ outer, ?_⟩⟩
          simp
      | @cons next qs sources parts hnext hrest =>
          -- The bar ends the branch, and the rest is read with one more branch done.
          obtain ⟨tokens', hcut', hfold'⟩ := ih (List.cons_ne_nil _ _)
          refine ⟨tokens ++ ([.bar] ++ tokens'), ?_, ?_⟩
          · rw [List.intercalate_cons_cons, List.append_assoc]
            exact hcut.append (Cuts.bar.append hcut')
          · intro done outer
            obtain ⟨g, hg, hbranches⟩ := hfold' (concatOf ps :: done) outer
            refine ⟨g, ?_, ?_⟩
            · rw [List.foldlM_append, hfold]
              simpa [assemble] using hg
            · simpa using hbranches

theorem Cuts.openGroup : Cuts ['(', '?', ':'] [.openGroup] := by
  refine Cuts.single fun rest => ?_
  simp [tokenAt?, List.isPrefixOf]

theorem Cuts.closeGroup : Cuts [')'] [.closeGroup] := Cuts.single fun _ => rfl

/-- A group is read as the choice between its branches. -/
theorem Reads.group {source : List Char} {branches : List Regex}
    (h : ReadsBranches source branches) :
    Reads ('(' :: '?' :: ':' :: (source ++ [')'])) [.group (choiceOf branches)] := by
  obtain ⟨tokens, hcut, hfold⟩ := h
  have hcuts := Cuts.openGroup.append (hcut.append Cuts.closeGroup)
  refine ⟨[.openGroup] ++ (tokens ++ [.closeGroup]), by simpa using hcuts, ?_⟩
  intro g outer
  obtain ⟨inner, hinner, hbranches⟩ := hfold [] (g :: outer)
  have hclose : inner.close = choiceOf branches := by
    rw [OpenGroup.close, hbranches]
    rfl
  calc ([Token.openGroup] ++ (tokens ++ [Token.closeGroup])).foldlM assemble (g :: outer)
      = (tokens ++ [Token.closeGroup]).foldlM assemble (⟨[], []⟩ :: g :: outer) := rfl
    _ = [Token.closeGroup].foldlM assemble (inner :: g :: outer) := by
        rw [List.foldlM_append, hinner]
        rfl
    _ = some (g.push (.group inner.close) :: outer) := rfl
    _ = some ({ g with parts := [.group (choiceOf branches)].reverse ++ g.parts } :: outer) := by
        rw [hclose]
        rfl

/-! ## Repetitions -/

/-- A quantifier repeats the part before it. -/
theorem Reads.quantified {source quantifier : List Char} {part : Regex} {min : Nat}
    {max : Option Nat} (h : Reads source [part]) (hcut : Cuts quantifier [.quantifier min max]) :
    Reads (source ++ quantifier) [.repeated part min max] := by
  obtain ⟨tokens, hcut', hfold⟩ := h
  refine ⟨tokens ++ [.quantifier min max], hcut'.append hcut, ?_⟩
  intro g outer
  rw [List.foldlM_append, hfold]
  simp [assemble]

theorem Cuts.optional : Cuts ['?'] [.quantifier 0 (some 1)] := Cuts.single fun _ => rfl

theorem Cuts.anyNumber : Cuts ['*'] [.quantifier 0 none] := Cuts.single fun _ => rfl

theorem Cuts.atLeastOnce : Cuts ['+'] [.quantifier 1 none] := Cuts.single fun _ => rfl

/-- What a brace opens is read by what stands before the next closing brace. -/
theorem tokenAt?_brace {body : List Char} (hbrace : '\x7d' ∉ body) (rest : List Char) :
    tokenAt? '\x7b' (body ++ ['\x7d'] ++ rest) =
      (readBounds? body).map fun (min, max) => (.quantifier min max, body.length + 1) := by
  have htake : (body ++ ['\x7d'] ++ rest).takeWhile (· != '\x7d') = body := by
    rw [List.append_assoc, List.takeWhile_append_of_pos]
    · simp
    · intro c hc
      rw [bne_iff_ne]
      rintro rfl
      exact hbrace hc
  have hlen : body.length ≠ (body ++ ['\x7d'] ++ rest).length := by simp
  simp only [tokenAt?, htake, if_neg hlen]

/-- Bounds between braces are read by what stands between the braces. -/
theorem Cuts.braces {body : List Char} {min : Nat} {max : Option Nat}
    (hbrace : '\x7d' ∉ body) (hbounds : readBounds? body = some (min, max)) :
    Cuts ('\x7b' :: (body ++ ['\x7d'])) [.quantifier min max] := by
  refine Cuts.single fun rest => ?_
  rw [tokenAt?_brace hbrace, hbounds]
  simp

theorem readBounds?_exact (n : Nat) : readBounds? (Nat.toDigits 10 n) = some (n, some n) := by
  have hsplit : (Nat.toDigits 10 n).splitOn ',' = [Nat.toDigits 10 n] :=
    List.splitOn_eq_singleton (notMem_toDigits n rfl)
  simp [readBounds?, hsplit, readDigits?_toDigits]

theorem readBounds?_atLeast (n : Nat) :
    readBounds? (Nat.toDigits 10 n ++ [',']) = some (n, none) := by
  have hsplit : (Nat.toDigits 10 n ++ [',']).splitOn ',' = [Nat.toDigits 10 n, []] := by
    rw [List.splitOn_append_cons_self_of_not_mem (notMem_toDigits n rfl), List.splitOn_nil]
  simp [readBounds?, hsplit, readDigits?_toDigits]

theorem readBounds?_pair (m n : Nat) :
    readBounds? (Nat.toDigits 10 m ++ ',' :: Nat.toDigits 10 n) =
      if m ≤ n then some (m, some n) else none := by
  have hsplit : (Nat.toDigits 10 m ++ ',' :: Nat.toDigits 10 n).splitOn ',' =
      [Nat.toDigits 10 m, Nat.toDigits 10 n] := by
    rw [List.splitOn_append_cons_self_of_not_mem (notMem_toDigits m rfl),
      List.splitOn_eq_singleton (notMem_toDigits n rfl)]
  simp [readBounds?, hsplit, readDigits?_toDigits]

/-! ## Sources that cannot be read -/

/-- The source is not cut into tokens, whatever stands behind it. -/
def Unreadable (source : List Char) : Prop := ∀ rest, tokens? (source ++ rest) = none

theorem Unreadable.append {source : List Char} (h : Unreadable source) (more : List Char) :
    Unreadable (source ++ more) := by
  intro rest
  rw [List.append_assoc]
  exact h _

theorem Cuts.unreadable_append {source more : List Char} {tokens : List Token}
    (h : Cuts source tokens) (hmore : Unreadable more) : Unreadable (source ++ more) := by
  intro rest
  rw [List.append_assoc, h, hmore, Option.map_none]

theorem Reads.unreadable_append {source more : List Char} {parts : List Regex}
    (h : Reads source parts) (hmore : Unreadable more) : Unreadable (source ++ more) := by
  obtain ⟨tokens, hcut, -⟩ := h
  exact hcut.unreadable_append hmore

/-- Bounds between braces have to be bounds. -/
theorem unreadable_braces {body : List Char} (hbrace : '\x7d' ∉ body)
    (hbounds : readBounds? body = none) : Unreadable ('\x7b' :: (body ++ ['\x7d'])) := by
  intro rest
  rw [List.cons_append, tokens?, tokensFrom?, tokenAt?_brace hbrace, hbounds]
  rfl

/-! ## Whole sources -/

/-- A source between the two ends of the text is read as the sequence of its parts between
them. -/
theorem ofSource?_anchored {source : List Char} {parts : List Regex} (h : Reads source parts) :
    ofSource? ('^' :: (source ++ ['$'])) =
      some (concatOf (.atStart :: (parts ++ [.atEnd]))) := by
  obtain ⟨tokens, hcut, hfold⟩ := Reads.atStart.append (h.append Reads.atEnd)
  have htokens : tokens? ('^' :: (source ++ ['$'])) = some tokens := by
    have := hcut []
    simpa using this
  rw [ofSource?, htokens, Option.bind_some, ofTokens?, hfold {} []]
  simp [OpenGroup.close, choiceOf]

/-- Nothing is read of a source that is not cut into tokens. -/
theorem ofSource?_unreadable {source : List Char} (h : Unreadable source) :
    ofSource? ('^' :: (source ++ ['$'])) = none := by
  obtain ⟨tokens, hcut, -⟩ := Reads.atStart
  have htokens : tokens? ('^' :: (source ++ ['$'])) = none :=
    hcut.unreadable_append h ['$']
  rw [ofSource?, htokens, Option.bind_none]

end SpeechGrammar.Regex
