import SpeechGrammar.CommandLine.Run
import SpeechGrammar.Proofs.Fingerprint.Json
import SpeechGrammar.Proofs.Prepared

set_option autoImplicit false

/-!
# Commands write all or nothing

A run goes through the same steps for every command before it writes anything
(`execute_all_or_nothing`). The first step that fails decides how the run ends (`Fails`), and then
nothing has been written. When all steps succeed (`Ready`), the command writes its lines; matching
writes one line for each utterance, and each line is read back as a JSON object.
-/

namespace SpeechGrammar.CommandLine

open Text

variable {args : Arguments} {files : String → Option String}

/-! ## The steps before the output -/

/-- All steps before the output succeed: the options are loaded, the file is read, it is parsed,
its root is there, and the grammar is prepared and compiled. -/
inductive Ready (args : Arguments) (files : String → Option String) : Prepared → Prop where
  | intro {options : CompileOptions} {text : String} {loaded grammar : Grammar} {report : Report}
      {compiled : CompiledGrammar} (hoptions : args.options files = .ok options)
      (hread : files args.path = some text) (hparse : Grammar.parse text = .ok loaded)
      (hroot : loaded.hasMatchingRoot = true) (hprepare : loaded.prepared = .ok (grammar, report))
      (hcompile : grammar.compile options = .ok compiled) : Ready args files ⟨grammar, compiled⟩

/-- The first step that fails, and how. The steps before it have succeeded. -/
inductive Fails (args : Arguments) (files : String → Option String) : Failure → Prop where
  | options {cause : OptionsError} (hoptions : args.options files = .error cause) :
      Fails args files (.options cause)
  | unreadable {options : CompileOptions} (hoptions : args.options files = .ok options)
      (hread : files args.path = none) : Fails args files (.unreadable args.path)
  | unparsed {options : CompileOptions} {text : String} {cause : Error}
      (hoptions : args.options files = .ok options) (hread : files args.path = some text)
      (hparse : Grammar.parse text = .error cause) : Fails args files (.unparsed args.path cause)
  | rootless {options : CompileOptions} {text root : String} {loaded : Grammar}
      (hoptions : args.options files = .ok options) (hread : files args.path = some text)
      (hparse : Grammar.parse text = .ok loaded) (hdeclared : loaded.root = some root)
      (hroot : loaded.hasMatchingRoot = false) : Fails args files (.rootless (.missingRootRule root))
  | unprepared {options : CompileOptions} {text : String} {loaded : Grammar} {cause : Error}
      (hoptions : args.options files = .ok options) (hread : files args.path = some text)
      (hparse : Grammar.parse text = .ok loaded) (hroot : loaded.hasMatchingRoot = true)
      (hprepare : loaded.prepared = .error cause) : Fails args files (.unprepared args.path cause)
  | uncompiled {options : CompileOptions} {text : String} {loaded grammar : Grammar}
      {report : Report} {cause : Error} (hoptions : args.options files = .ok options)
      (hread : files args.path = some text) (hparse : Grammar.parse text = .ok loaded)
      (hroot : loaded.hasMatchingRoot = true) (hprepare : loaded.prepared = .ok (grammar, report))
      (hcompile : grammar.compile options = .error cause) : Fails args files (.uncompiled cause)

/-- Either all steps succeed, or one of them is the first that fails. -/
theorem ready_or_fails (args : Arguments) (files : String → Option String) :
    (∃ p, Ready args files p) ∨ ∃ f, Fails args files f := by
  cases hoptions : args.options files with
  | error cause => exact .inr ⟨_, .options hoptions⟩
  | ok options =>
  cases hread : files args.path with
  | none => exact .inr ⟨_, .unreadable hoptions hread⟩
  | some text =>
  cases hparse : Grammar.parse text with
  | error cause => exact .inr ⟨_, .unparsed hoptions hread hparse⟩
  | ok loaded =>
  cases hroot : loaded.hasMatchingRoot with
  | false =>
      -- Only a root that is declared can be missing.
      cases hdeclared : loaded.root with
      | none => simp [Grammar.hasMatchingRoot, hdeclared] at hroot
      | some root => exact .inr ⟨_, .rootless hoptions hread hparse hdeclared hroot⟩
  | true =>
  cases hprepare : loaded.prepared with
  | error cause => exact .inr ⟨_, .unprepared hoptions hread hparse hroot hprepare⟩
  | ok prepared =>
  cases hcompile : prepared.1.compile options with
  | error cause => exact .inr ⟨_, .uncompiled hoptions hread hparse hroot hprepare hcompile⟩
  | ok compiled => exact .inl ⟨_, .intro hoptions hread hparse hroot hprepare hcompile⟩

/-- A grammar passes the root check if it has the root that it declares. -/
theorem requireRoot_of_hasMatchingRoot {g : Grammar} (h : g.hasMatchingRoot = true) :
    g.requireRoot = .ok g := by
  rw [Grammar.requireRoot]
  split
  · rename_i hroot hrule
    simp [Grammar.hasMatchingRoot, hroot, hrule] at h
  · rfl

theorem requireRoot_of_not_hasMatchingRoot {g : Grammar} {root : String} (hroot : g.root = some root)
    (h : g.hasMatchingRoot = false) : g.requireRoot = .error (.missingRootRule root) := by
  have hrule : g.rootRule? = none := by simpa [Grammar.hasMatchingRoot, hroot] using h
  simp only [Grammar.requireRoot, hroot, hrule]

theorem prepare_of_ready {p : Prepared} (h : Ready args files p) : prepare args files = .ok p := by
  obtain ⟨hoptions, hread, hparse, hroot, hprepare, hcompile⟩ := h
  simp [prepare, loadGrammar, hoptions, hread, hparse, requireRoot_of_hasMatchingRoot hroot,
    hprepare, hcompile, Except.mapError, Except.bind, Except.map]

theorem prepare_of_fails {f : Failure} (h : Fails args files f) : prepare args files = .error f := by
  cases h with
  | options hoptions => simp [prepare, hoptions, Except.mapError, Except.bind]
  | unreadable hoptions hread =>
      simp [prepare, loadGrammar, hoptions, hread, Except.mapError, Except.bind]
  | unparsed hoptions hread hparse =>
      simp [prepare, loadGrammar, hoptions, hread, hparse, Except.mapError, Except.bind]
  | rootless hoptions hread hparse hdeclared hroot =>
      simp [prepare, loadGrammar, hoptions, hread, hparse,
        requireRoot_of_not_hasMatchingRoot hdeclared hroot, Except.mapError, Except.bind]
  | unprepared hoptions hread hparse hroot hprepare =>
      simp [prepare, loadGrammar, hoptions, hread, hparse, requireRoot_of_hasMatchingRoot hroot,
        hprepare, Except.mapError, Except.bind]
  | uncompiled hoptions hread hparse hroot hprepare hcompile =>
      simp [prepare, loadGrammar, hoptions, hread, hparse, requireRoot_of_hasMatchingRoot hroot,
        hprepare, hcompile, Except.mapError, Except.bind, Except.map]

/-! ## The output -/

/-- The characters of lines, each with a line feed behind it. -/
def feedLines (lines : List (List Char)) : List Char := lines.flatMap (· ++ ['\n'])

theorem splitOn_feedLines {lines : List (List Char)} (h : ∀ line ∈ lines, '\n' ∉ line) :
    (feedLines lines).splitOn '\n' = lines ++ [[]] := by
  induction lines with
  | nil => rfl
  | cons line lines ih =>
      rw [List.forall_mem_cons] at h
      have hcons : feedLines (line :: lines) = line ++ '\n' :: feedLines lines := by
        simp [feedLines]
      rw [hcons, List.splitOn_append_cons_self_of_not_mem h.1, ih h.2, List.cons_append]

/-- Lines are written behind what has been written before. -/
theorem run_forM_writeLine (lines : List String) (written : String) :
    ((lines.forM writeLine).run.run written).run =
      (.ok (), written ++ String.ofList (feedLines (lines.map String.toList))) := by
  induction lines generalizing written with
  | nil => simp [feedLines]
  | cons line lines ih =>
      have hline : written ++ line ++ "\n" ++ String.ofList (feedLines (lines.map String.toList)) =
          written ++ String.ofList (feedLines ((line :: lines).map String.toList)) := by
        rw [← String.toList_inj]
        simp [feedLines]
      show ((lines.forM writeLine).run.run (written ++ line ++ "\n")).run = _
      rw [ih, hline]

/-- A run whose steps succeed ends well and has written all lines of its command. -/
theorem execute_of_ready {p : Prepared} (h : Ready args files p) :
    execute args files =
      (.ok (), String.ofList (feedLines ((output args p).map String.toList))) := by
  have hsteps : steps args files = (output args p).forM writeLine := by
    rw [steps, prepare_of_ready h]
    rfl
  rw [execute, hsteps, run_forM_writeLine, String.empty_append]

/-- A run ends with the first step that fails, and then nothing has been written. -/
theorem execute_of_fails {f : Failure} (h : Fails args files f) :
    execute args files = (.error f, "") := by
  rw [execute, steps, prepare_of_fails h]
  rfl

/-- How a run ends depends on the steps before the output only. -/
theorem execute_fst (args : Arguments) (files : String → Option String) :
    (execute args files).1 = (prepare args files).map fun _ => () := by
  obtain ⟨p, h⟩ | ⟨f, h⟩ := ready_or_fails args files
  · rw [execute_of_ready h, prepare_of_ready h]
    rfl
  · rw [execute_of_fails h, prepare_of_fails h]
    rfl

/-! ## Reports on utterances -/

/-- A line is a JSON object, without repeated keys, that says of an utterance whether the pattern
accepts it. -/
def Reports (compiled : CompiledGrammar) (utterance : String) (line : List Char) : Prop :=
  ∃ entries, Json.read? line = some (.object entries) ∧ (entries.map Prod.fst).Nodup ∧
    ("matched", .bool (compiled.pattern.isMatch
      (canonicalize (.ofMode compiled.mode) utterance).toList)) ∈ entries ∧
    ("utterance", .string utterance) ∈ entries

theorem reports_matchLine (compiled : CompiledGrammar) (utterance : String) :
    Reports compiled utterance (matchLine compiled utterance).toList := by
  rw [matchLine, String.toList_ofList, CompiledGrammar.match?]
  cases hmatch : compiled.pattern.isMatch
      (canonicalChars (.ofMode compiled.mode) utterance.toList) with
  | true =>
      refine ⟨_, Json.read?_render _, ?_, ?_, ?_⟩
      · simp
      · simp [canonicalize, hmatch]
      · simp
  | false =>
      refine ⟨_, Json.read?_render _, ?_, ?_, ?_⟩
      · simp
      · simp [canonicalize, hmatch]
      · simp

theorem not_mem_matchLine (compiled : CompiledGrammar) (utterance : String) :
    '\n' ∉ (matchLine compiled utterance).toList := by
  intro h
  rw [matchLine, String.toList_ofList] at h
  exact absurd (Json.printable_render _ _ h) (by decide)

/-! ## All or nothing -/

/-- A run fails at the first step that fails, with nothing written, and otherwise succeeds. How
it ends does not depend on the command or the utterances. When matching succeeds, what is
written is one line for each utterance, in order, each with a line feed behind it, and each line
reports on its utterance. -/
theorem execute_all_or_nothing (args : Arguments) (files : String → Option String) :
    ((∃ p, Ready args files p) ∨ ∃ f, Fails args files f) ∧
      (∀ f, Fails args files f → execute args files = (.error f, "")) ∧
      (∀ p, Ready args files p → (execute args files).1 = .ok ()) ∧
      (∀ command utterances, (execute { args with command, utterances } files).1 =
        (execute args files).1) ∧
      ∀ p, Ready args files p → args.command = .match →
        ∃ lines, (execute args files).2.toList.splitOn '\n' = lines ++ [[]] ∧
          List.Forall₂ (Reports p.compiled) args.utterances lines := by
  refine ⟨ready_or_fails args files, fun f h => execute_of_fails h, fun p h => ?_,
    fun command utterances => ?_, fun p h hcommand => ?_⟩
  · rw [execute_of_ready h]
  · rw [execute_fst, execute_fst]
    rfl
  · have houtput : (output args p).map String.toList =
        args.utterances.map fun utterance => (matchLine p.compiled utterance).toList := by
      rw [output, hcommand, List.map_map]
      rfl
    refine ⟨args.utterances.map fun utterance => (matchLine p.compiled utterance).toList, ?_, ?_⟩
    -- No line holds a line feed, so the output comes apart into the lines.
    · rw [execute_of_ready h, houtput, String.toList_ofList, splitOn_feedLines]
      simpa using fun utterance _ => not_mem_matchLine p.compiled utterance
    · rw [List.forall₂_map_right_iff, List.forall₂_same]
      exact fun utterance _ => reports_matchLine p.compiled utterance

/-- Two utterances to match; the second has quotes and line feeds in it. -/
def greetingArguments : Arguments :=
  ⟨none, false, .match, "greeting.xml", ["hi", "say \"hi\"\n\n"]⟩

def greetingFiles (file : String) : Option String :=
  if file = "greeting.xml" then some "<grammar root=\"r\"><rule id=\"r\">hi</rule></grammar>"
  else none

def greetingGrammar (node : Node) : Grammar :=
  { root := some "r", children := [.rule { id := "r", body := [node] }] }

def greetingExpression : Regex := .concat [.atStart, .char ' ', .char 'h', .char 'i', .atEnd]

theorem ready_greetingArguments : ∃ p, Ready greetingArguments greetingFiles p := by
  have hparse : Grammar.parse "<grammar root=\"r\"><rule id=\"r\">hi</rule></grammar>" =
      .ok (greetingGrammar (.literal "hi")) := by
    decide +kernel
  have hinline : inlineChildren (some "r") (greetingGrammar (.literal "hi")).children =
      .ok (greetingGrammar (.literal "hi")).children := by
    cbv
  have hpasses : tokenizeChildren (normalizeChildren (greetingGrammar (.literal "hi")).children) =
      (greetingGrammar (.token "hi")).children := by
    decide +kernel
  obtain ⟨report, hprepared⟩ := prepared_eq_ok_iff.2 ⟨_, hinline, rfl⟩
  rw [hpasses] at hprepared
  have hsimple : greetingExpression.simplify (fun c => [c]) =
      .concat [.atStart, .literal " hi".toList, .atEnd] := by
    simp only [greetingExpression, Regex.simplify, Regex.simplifyAll, List.map_cons, List.map_nil,
      classOf_single]
    rfl
  have hsize : (greetingExpression.simplify (fun c => [c])).automatonSize ≤
      Regex.maxAutomatonSize := by
    rw [hsimple]
    decide +kernel
  have hfragment : Rule.fragment (.ofMode none) { id := "r", body := [.token "hi"] } =
      .ok " hi".toList := by
    decide +kernel
  have hcompiled : compileRule (some { id := "r", body := [.token "hi"] }) none {} =
      .ok (.regex "^ hi$".toList greetingExpression false) :=
    compileRule_eq_ok hfragment (by decide) rfl (by decide +kernel) hsize
  exact ⟨_, .intro rfl rfl hparse rfl hprepared (map_eq_ok.2 ⟨_, hcompiled, rfl⟩)⟩

/-- The same command succeeds with the file, and writes nothing without it. -/
theorem execute_all_or_nothing_greeting :
    (∃ p, Ready greetingArguments greetingFiles p ∧
      (execute greetingArguments greetingFiles).1 = .ok () ∧
        ∃ lines, (execute greetingArguments greetingFiles).2.toList.splitOn '\n' =
            lines ++ [[]] ∧
          List.Forall₂ (Reports p.compiled) ["hi", "say \"hi\"\n\n"] lines) ∧
      Fails greetingArguments (fun _ => none) (.unreadable "greeting.xml") ∧
      execute greetingArguments (fun _ => none) = (.error (.unreadable "greeting.xml"), "") := by
  obtain ⟨p, hready⟩ := ready_greetingArguments
  obtain ⟨-, -, hok, -, hlines⟩ := execute_all_or_nothing greetingArguments greetingFiles
  obtain ⟨-, herror, -⟩ := execute_all_or_nothing greetingArguments fun _ => none
  have hfails : Fails greetingArguments (fun _ => none) (.unreadable "greeting.xml") :=
    .unreadable rfl rfl
  exact ⟨⟨p, hready, hok p hready, hlines p hready rfl⟩, hfails, herror _ hfails⟩

end SpeechGrammar.CommandLine
