import SpeechGrammar.Proofs.Markup.Tag
import SpeechGrammar.Proofs.Markup.Tree

set_option autoImplicit false

/-!
# A written document is read back

Writing a tree of markup and reading it back changes the text in it and nothing else
(`read_render`). Texts that stand side by side are written as one run, and a run loses the blanks at
its ends and vanishes if nothing is left. `rereadFrom` computes what is read, with the text of the
run that has not ended yet as its argument.

The proof follows the tree. Whatever stands behind a list of nodes begins with a tag, so
`ReadsBack` says of the nodes what the reader has assembled when it comes to that tag.
-/

namespace SpeechGrammar.Markup

open Text

/-! ## What is read of written nodes -/

/-- The text that is read from a run: nothing if the run is blank. -/
def textNodes (run : List Char) : List Node :=
  if (trimXml run).isEmpty then [] else [.text (String.ofList (trimXml run))]

mutual

/-- What is read of a node. Text is not read by itself but as a part of its run. -/
def Node.reread : Node → Node
  | .text s => .text s
  | .element name attributes children => .element name attributes (rereadFrom [] children)

/-- What is read of nodes that stand behind a text. -/
def rereadFrom (text : List Char) : List Node → List Node
  | [] => textNodes text
  | .text s :: ns => rereadFrom (text ++ s.toList) ns
  | n :: ns => textNodes text ++ n.reread :: rereadFrom [] ns

end

mutual

/-- All tags of the node and of what is below it are plain. -/
def Node.IsPlain : Node → Prop
  | .text _ => True
  | .element name attributes children => IsPlainTag name attributes ∧ AllPlain children

/-- All tags of the nodes and of what is below them are plain. -/
def AllPlain : List Node → Prop
  | [] => True
  | n :: ns => n.IsPlain ∧ AllPlain ns

end

mutual

/-- All tags of the node and of what is below it are read as they were written. -/
def Node.IsReadable : Node → Prop
  | .text _ => True
  | .element name attributes children => IsReadableTag name attributes ∧ AllReadable children

/-- All tags of the nodes and of what is below them are read as they were written. -/
def AllReadable : List Node → Prop
  | [] => True
  | n :: ns => n.IsReadable ∧ AllReadable ns

end

mutual

theorem Node.IsPlain.isReadable : ∀ {n : Node}, n.IsPlain → n.IsReadable
  | .text _, _ => trivial
  | .element _ _ _, h => ⟨h.1.isReadable, AllPlain.allReadable h.2⟩

theorem AllPlain.allReadable : ∀ {ns : List Node}, AllPlain ns → AllReadable ns
  | [], _ => trivial
  | _ :: _, h => ⟨h.1.isReadable, AllPlain.allReadable h.2⟩

end

theorem rereadFrom_cons {n : Node} (hn : ∀ s, n ≠ .text s) (text : List Char) (ns : List Node) :
    rereadFrom text (n :: ns) = textNodes text ++ n.reread :: rereadFrom [] ns := by
  rw [rereadFrom]
  exact hn

/-! ## Joining text -/

/-- Joining text does not change what is read. -/
theorem rereadFrom_pushNode (children : List Node) (node : Node) (rest : List Node)
    (text : List Char) :
    rereadFrom text (pushNode children node ++ rest) =
      rereadFrom text (children ++ node :: rest) := by
  induction children, node using pushNode.induct generalizing text with
  | case1 node => rfl
  | case2 old new => simp [pushNode, rereadFrom]
  | case3 c children node hnot ih =>
      rw [pushNode, List.cons_append, List.cons_append]
      · cases c with
        | text s => rw [rereadFrom, rereadFrom, ih]
        | element name attributes below => simp [rereadFrom, ih]
      · exact hnot

theorem rereadFrom_foldl_pushNode (nodes children : List Node) (text : List Char) :
    rereadFrom text (nodes.foldl pushNode children) = rereadFrom text (children ++ nodes) := by
  induction nodes generalizing children with
  | nil => rw [List.foldl_nil, List.append_nil]
  | cons node nodes ih => rw [List.foldl_cons, ih, rereadFrom_pushNode]

theorem allPlain_pushNode {children : List Node} {node : Node} (hchildren : AllPlain children)
    (hnode : node.IsPlain) : AllPlain (pushNode children node) := by
  induction children, node using pushNode.induct with
  | case1 node => exact ⟨hnode, trivial⟩
  | case2 old new => exact ⟨trivial, trivial⟩
  | case3 c children node hnot ih =>
      rw [pushNode]
      · exact ⟨hchildren.1, ih hchildren.2 hnode⟩
      · exact hnot

theorem allPlain_foldl_pushNode {nodes children : List Node} (hchildren : AllPlain children)
    (hnodes : ∀ node ∈ nodes, node.IsPlain) : AllPlain (nodes.foldl pushNode children) := by
  induction nodes generalizing children with
  | nil => exact hchildren
  | cons node nodes ih =>
      rw [List.forall_mem_cons] at hnodes
      exact ih (allPlain_pushNode hchildren hnodes.1) hnodes.2

/-- An element ends the run of text before it. -/
theorem rereadFrom_append_element (ns : List Node) (name : String)
    (attributes : List (String × String)) (children rest : List Node) (text : List Char) :
    rereadFrom text (ns ++ .element name attributes children :: rest) =
      rereadFrom text ns ++ .element name attributes (rereadFrom [] children) ::
        rereadFrom [] rest := by
  induction ns generalizing text with
  | nil => simp [rereadFrom, Node.reread]
  | cons n ns ih =>
      cases n with
      | text s => exact ih _
      | element name' attributes' children' => simp [rereadFrom, ih]

/-! ## Events -/

/-- The events of a run of text. -/
def textEvents (run : List Char) : List Event :=
  if (trimXml run).isEmpty then [] else [.text (trimXml run)]

theorem events_eq_nil {cs : List Char} (hcs : cs.dropWhile isXmlBlank = []) (position : Nat) :
    events position cs = [] := by
  rw [events]
  split
  · rfl
  · rename_i markup heq
    rw [hcs] at heq
    cases heq
  · rename_i c run hnot heq
    rw [hcs] at heq
    cases heq

theorem events_eq_markup {cs markup : List Char} (hcs : cs.dropWhile isXmlBlank = '<' :: markup)
    (position : Nat) :
    events position cs =
      match readMarkup (position + byteLength (cs.takeWhile isXmlBlank)) markup with
      | .error fault => [.malformed fault]
      | .ok (event?, size, rest) =>
          event?.toList ++ events (position + byteLength (cs.takeWhile isXmlBlank) + size) rest := by
  rw [events]
  split
  · rename_i hnil
    rw [hcs] at hnil
    cases hnil
  · rename_i markup' heq
    rw [hcs] at heq
    cases heq
    dsimp only
    split <;> simp_all
  · rename_i c run hnot heq
    rw [hcs] at heq
    cases heq
    exact absurd rfl hnot

theorem events_eq_text {cs run : List Char} {c : Char} (hc : c ≠ '<')
    (hcs : cs.dropWhile isXmlBlank = c :: run) {position stop : Nat}
    (hstop : stop = position + byteLength (cs.takeWhile isXmlBlank) +
      byteLength (c :: run.takeWhile (· != '<'))) :
    events position cs =
      match unescape? (trimXmlEnd (c :: run.takeWhile (· != '<'))) with
      | none => [.malformed stop]
      | some text => .text text :: events stop (run.dropWhile (· != '<')) := by
  rw [events]
  split
  · rename_i hnil
    rw [hcs] at hnil
    cases hnil
  · rename_i markup heq
    rw [hcs] at heq
    cases heq
    exact absurd rfl hc
  · rename_i d run' hnot heq
    rw [hcs] at heq
    cases heq
    subst hstop
    rfl

/-- The next piece of markup gives the next event. -/
theorem events_markup {position size : Nat} {cs markup rest : List Char} {event : Event}
    (hcs : cs.dropWhile isXmlBlank = '<' :: markup)
    (hread : readMarkup (position + byteLength (cs.takeWhile isXmlBlank)) markup =
      .ok (some event, size, rest)) :
    ∃ next, events position cs = event :: events next rest := by
  rw [events_eq_markup hcs, hread]
  exact ⟨_, rfl⟩

theorem events_text (position : Nat) {cs run text : List Char} {c : Char} (hc : c ≠ '<')
    (hcs : cs.dropWhile isXmlBlank = c :: run)
    (htext : unescape? (trimXmlEnd (c :: run.takeWhile (· != '<'))) = some text) :
    ∃ next, events position cs = .text text :: events next (run.dropWhile (· != '<')) := by
  rw [events_eq_text hc hcs rfl, htext]
  exact ⟨_, rfl⟩

/-- The end of the text or the beginning of markup: what can stand behind a run of text. -/
def EndsRun (after : List Char) : Prop := ∀ c ∈ after.head?, c = '<'

theorem endsRun_markup (cs : List Char) : EndsRun ('<' :: cs) := by
  simp [EndsRun]

theorem EndsRun.isXmlBlank_head {after : List Char} (h : EndsRun after) :
    ∀ c ∈ after.head?, isXmlBlank c = false := by
  intro c hc
  obtain rfl := h c hc
  decide

theorem EndsRun.dropWhile_isXmlBlank {after : List Char} (h : EndsRun after) :
    after.dropWhile isXmlBlank = after :=
  @dropWhile_append_eq _ [] after (by simp) h.isXmlBlank_head

/-- A run of text is blank, or it starts with a character that is no blank and ends where the next
markup begins. -/
theorem run_cases {run after : List Char} (hrun : '<' ∉ run) (hafter : EndsRun after) :
    (trimXml run = [] ∧ (run ++ after).dropWhile isXmlBlank = after) ∨
      ∃ c cs, c ≠ '<' ∧ (run ++ after).dropWhile isXmlBlank = c :: (cs ++ after) ∧
        (cs ++ after).takeWhile (· != '<') = cs ∧ (cs ++ after).dropWhile (· != '<') = after ∧
        trimXmlEnd (c :: cs) = trimXml run ∧ trimXml run ≠ [] := by
  cases hdrop : run.dropWhile isXmlBlank with
  | nil =>
      have hblank := List.dropWhile_eq_nil_iff.1 hdrop
      exact .inl ⟨trimBy_of_forall hblank, dropWhile_append_eq hblank hafter.isXmlBlank_head⟩
  | cons c cs =>
      have hnot : ∀ d ∈ c :: cs, (d != '<') = true := by
        intro d hd
        rw [← hdrop] at hd
        rw [bne_iff_ne]
        exact ne_of_mem_of_not_mem ((List.dropWhile_suffix _).mem hd) hrun
      rw [List.forall_mem_cons, bne_iff_ne] at hnot
      have hhead : ∀ d ∈ after.head?, (d != '<') = false := by
        intro d hd
        rw [hafter d hd]
        decide
      have htrim : trimXmlEnd (c :: cs) = trimXml run := by rw [← hdrop]; rfl
      have hne : trimXml run ≠ [] := by
        intro hnil
        rw [hnil] at htrim
        have hblank := List.rdropWhile_eq_nil_iff.1 htrim c (List.mem_cons_self ..)
        rw [head?_dropWhile isXmlBlank run c (by rw [hdrop]; rfl)] at hblank
        cases hblank
      refine .inr ⟨c, cs, hnot.1, ?_, takeWhile_append_eq hnot.2 hhead,
        dropWhile_append_eq hnot.2 hhead, htrim, hne⟩
      rw [List.dropWhile_append, hdrop]
      rfl

/-- A text is written as a run that ends where the next tag begins. -/
theorem events_run {markup rest : List Char} {event : Nat → Event} (run : List Char)
    (hread : ∀ start, ∃ size, readMarkup start markup = .ok (some (event start), size, rest))
    (position : Nat) :
    ∃ start next, events position (escape run ++ '<' :: markup) =
      textEvents run ++ event start :: events next rest := by
  have hrun : '<' ∉ escape run := notMem_escape (by decide) (by decide) run
  obtain ⟨htrim, hcs⟩ | ⟨c, cs, hc, hcs, htake, hdrop, htrim, hne⟩ :=
    run_cases hrun (endsRun_markup markup)
  · obtain ⟨size, hsize⟩ := hread
      (position + byteLength ((escape run ++ '<' :: markup).takeWhile isXmlBlank))
    obtain ⟨next, hnext⟩ := events_markup hcs hsize
    have hevents : textEvents run = [] := by
      rw [textEvents, escape_eq_nil_iff.1 ((trimXml_escape run).symm.trans htrim)]
      rfl
    rw [hevents]
    exact ⟨_, next, hnext⟩
  · obtain ⟨middle, hmiddle⟩ := events_text position hc hcs
      (by rw [htake, htrim, trimXml_escape, unescape?_escape])
    obtain ⟨size, hsize⟩ := hread
      (middle + byteLength (('<' :: markup).takeWhile isXmlBlank))
    obtain ⟨next, hnext⟩ := events_markup (List.dropWhile_cons_of_neg (by decide)) hsize
    have hevents : textEvents run = [.text (trimXml run)] := by
      rw [trimXml_escape, ne_eq, escape_eq_nil_iff] at hne
      exact if_neg (by simpa using hne)
    rw [hmiddle, hdrop, hnext, hevents]
    exact ⟨_, next, rfl⟩

/-! ## Assembling -/

/-- What the reader has assembled at the end of a text that starts at `position`. -/
def assemble (a : Assembly) (position : Nat) (cs : List Char) : Except ReadError Assembly :=
  (events position cs).foldlM Assembly.take a

/-- The open element with more children. -/
def OpenElement.append (o : OpenElement) (nodes : List Node) : OpenElement :=
  { o with element := { o.element with children := o.element.children ++ nodes } }

/-- The last child of the open element is not text, so that text would not join it. -/
def OpenElement.EndsInTag (o : OpenElement) : Prop :=
  ∀ s, o.element.children.getLast? ≠ some (.text s)

theorem OpenElement.append_append (o : OpenElement) (ns ms : List Node) :
    (o.append ns).append ms = o.append (ns ++ ms) := by
  simp [OpenElement.append]

theorem OpenElement.endsInTag_append (o : OpenElement) (ns : List Node) (name : String)
    (attributes : List (String × String)) (children : List Node) :
    (o.append (ns ++ [.element name attributes children])).EndsInTag := by
  intro s
  simp [OpenElement.append, ← List.append_assoc]

/-- A run of text becomes a child of the innermost open element. -/
theorem foldlM_textEvents {inner : OpenElement} (h : inner.EndsInTag) (outer : List OpenElement)
    (root? : Option Element) (run : List Char) :
    (textEvents run).foldlM Assembly.take ⟨inner :: outer, root?⟩ =
      .ok ⟨inner.append (textNodes run) :: outer, root?⟩ := by
  by_cases hrun : (trimXml run).isEmpty = true
  · simp [textEvents, textNodes, hrun, OpenElement.append, pure, Except.pure]
  · simp [textEvents, textNodes, hrun, OpenElement.append, Assembly.take, Assembly.pushInner,
      Element.push, pushNode_text h, pure, Except.pure, bind, Except.bind]

/-- Where no key comes twice, the attributes of a tag are those of its element. -/
theorem tagElement_eq {attributes : List (String × String)} (h : (attributes.map Prod.fst).Nodup)
    (name : List Char) :
    tagElement name attributes = ⟨String.ofList (localName name), attributes, []⟩ := by
  rw [tagElement, Element.setAttrs_eq]
  exact congrArg (Element.mk _ · _) (insertAll_eq_append h)

/-- A run of text and the tag behind it are taken one after the other. -/
theorem assemble_run {a b : Assembly} {run : List Char}
    (hrun : (textEvents run).foldlM Assembly.take a = .ok b) {markup rest : List Char}
    {event : Nat → Event}
    (hread : ∀ start, ∃ size, readMarkup start markup = .ok (some (event start), size, rest))
    (position : Nat) :
    ∃ start next, assemble a position (escape run ++ '<' :: markup) =
      (b.take (event start)).bind fun c => assemble c next rest := by
  obtain ⟨start, next, hevents⟩ := events_run run hread position
  refine ⟨start, next, ?_⟩
  rw [assemble, hevents, List.foldlM_append, hrun]
  rfl

theorem attach_eq (inner : OpenElement) (outer : List OpenElement) (root? : Option Element)
    (e : Element) :
    (⟨inner :: outer, root?⟩ : Assembly).attach e =
      .ok ⟨inner.append [e.toNode] :: outer, root?⟩ := by
  simp [Assembly.attach, Assembly.pushInner, Element.push, Element.toNode, pushNode_element,
    OpenElement.append]

/-- Whatever tag stands behind the written nodes, and whatever text in front of them, the reader
takes that tag when the nodes have become children of the innermost open element. -/
def ReadsBack (ns : List Node) : Prop :=
  ∀ (text : List Char) (inner : OpenElement) (outer : List OpenElement) (root? : Option Element)
    (markup rest : List Char) (event : Nat → Event) (position : Nat), inner.EndsInTag →
    (∀ start, ∃ size, readMarkup start markup = .ok (some (event start), size, rest)) →
      ∃ start next, assemble ⟨inner :: outer, root?⟩ position
          (escape text ++ (renderAll ns ++ '<' :: markup)) =
        (Assembly.take ⟨inner.append (rereadFrom text ns) :: outer, root?⟩ (event start)).bind
          fun a => assemble a next rest

/-- A written element is read as one with the same tag, and with what is read of its children. -/
theorem assemble_element {name : String} {attributes : List (String × String)}
    {children : List Node} (h : IsReadableTag name attributes) (hchildren : ReadsBack children)
    {a b : Assembly} {run : List Char} (hrun : (textEvents run).foldlM Assembly.take a = .ok b)
    (rest : List Char) (position : Nat) :
    ∃ next, assemble a position
        (escape run ++ (Node.render (.element name attributes children) ++ rest)) =
      (b.attach ⟨name, attributes, rereadFrom [] children⟩).bind
        fun c => assemble c next rest := by
  have helement : tagElement name.toList attributes = ⟨name, attributes, []⟩ := by
    rw [tagElement_eq h.nodup, localName_name h.name, String.ofList_toList]
  cases children with
  | nil =>
      obtain ⟨_, next, htag⟩ :=
        assemble_run hrun (fun start => readMarkup_emptyTag h start rest) position
      refine ⟨next, ?_⟩
      rw [Node.render, List.cons_append, htag, Assembly.take, helement]
      rfl
  | cons c cs =>
      -- The start tag opens an element, its children are read into it, the end tag closes it.
      obtain ⟨_, inside, hstart⟩ := assemble_run hrun
        (fun start => readMarkup_startTag h start
          (renderAll (c :: cs) ++ '<' :: ('/' :: (name.toList ++ '>' :: rest)))) position
      obtain ⟨_, next, hend⟩ := hchildren [] ⟨name.toList, ⟨name, attributes, []⟩⟩ b.opened b.root?
        _ rest _ inside (by simp [OpenElement.EndsInTag])
        (fun start => readMarkup_endTag h.name.key start rest)
      refine ⟨next, ?_⟩
      rw [escape_nil, List.nil_append] at hend
      have hshape : Node.render (.element name attributes (c :: cs)) ++ rest =
          '<' :: (name.toList ++ renderAttributes attributes ++
            '>' :: (renderAll (c :: cs) ++ '<' :: ('/' :: (name.toList ++ '>' :: rest)))) := by
        simp [Node.render]
      rw [hshape, hstart, Assembly.take, helement, Except.bind, hend, Assembly.take]
      simp [OpenElement.append]

/-- Written nodes are read back, in whatever element they stand. -/
theorem readsBack : ∀ ns : List Node, AllReadable ns → ReadsBack ns
  | [], _ => by
      intro text inner outer root? markup rest event position hinner hread
      exact assemble_run (foldlM_textEvents hinner outer root? text) hread position
  | .text s :: ns, h => by
      intro text inner outer root? markup rest event position hinner hread
      have hrest := readsBack ns h.2 (text ++ s.toList) inner outer root? markup rest event position
        hinner hread
      rw [escape_append, List.append_assoc] at hrest
      rwa [renderAll, Node.render, rereadFrom, List.append_assoc]
  | .element name attributes children :: ns, h => by
      intro text inner outer root? markup rest event position hinner hread
      obtain ⟨⟨htag, hbelow⟩, hns⟩ := h
      obtain ⟨middle, helement⟩ := assemble_element htag (readsBack children hbelow)
        (foldlM_textEvents hinner outer root? text) (renderAll ns ++ '<' :: markup) position
      rw [attach_eq, Except.bind, OpenElement.append_append] at helement
      obtain ⟨start, next, hrest⟩ := readsBack ns hns [] _ outer root? markup rest event middle
        (inner.endsInTag_append (textNodes text) name attributes _) hread
      rw [escape_nil, List.nil_append, OpenElement.append_append] at hrest
      refine ⟨start, next, ?_⟩
      rw [renderAll, List.append_assoc, helement]
      simpa [rereadFrom, Node.reread, Element.toNode] using hrest

/-- A written document is read back: the tags as they are, and the text run by run. -/
theorem read_render {e : Element} (h : e.toNode.IsReadable) :
    read e.render = .ok ⟨e.name, e.attributes, rereadFrom [] e.children⟩ := by
  obtain ⟨htag, hchildren⟩ := h
  have hrun : (textEvents []).foldlM Assembly.take ({} : Assembly) = .ok {} := rfl
  obtain ⟨next, helement⟩ := assemble_element htag (readsBack e.children hchildren) hrun [] 0
  have hmark : dropMark e.toNode.render = e.toNode.render := by
    rw [Element.toNode]
    cases e.children <;> rfl
  have hend : events next [] = [] := by
    rw [events]
    rfl
  rw [escape_nil, List.nil_append, List.append_nil] at helement
  rw [read, Element.render, String.toList_ofList, readChars, hmark]
  show (assemble {} 0 e.toNode.render).bind Assembly.finish = _
  rw [Element.toNode, helement]
  simp [assemble, hend, Assembly.attach, Assembly.finish, Except.bind, pure, Except.pure]

end SpeechGrammar.Markup
