import Mathlib.Data.List.Chain
import SpeechGrammar.Pipeline
import SpeechGrammar.Proofs.Outcome

set_option autoImplicit false

/-!
# What a pipeline reports

The records of a run are a chain of fingerprints that leads from the input to the artifact that is
returned. A run that fails ends with the stage that failed, or with an artifact that has no
fingerprint (`runPipeline_provenance`). That the later stages do not run is said with stages that
keep a log of themselves: the runner does not know what its artifacts are, so it treats these stages
as it treats the ones that they log.
-/

namespace SpeechGrammar

variable {α ε : Type} {fingerprint : α → Except ε String}

/-! ## One stage -/

/-- A stage that is recorded has succeeded between two fingerprints. -/
theorem Stage.recorded_eq_ok {stage : Stage α ε} {artifact next : α} {record : StageRecord} :
    stage.recorded fingerprint artifact = .ok (next, record) ↔
      ∃ inHash outHash, fingerprint artifact = .ok inHash ∧ stage.run artifact = .ok next ∧
        fingerprint next = .ok outHash ∧
        record = { id := stage.id, inHash := inHash, outHash := outHash,
                   deterministic := stage.deterministic } := by
  simp only [recorded, bind_eq_ok, map_eq_ok, Prod.mk.injEq]
  constructor
  · rintro ⟨inHash, hin, next, hnext, outHash, hout, rfl, rfl⟩
    exact ⟨inHash, outHash, hin, hnext, hout, rfl⟩
  · rintro ⟨inHash, outHash, hin, hnext, hout, rfl⟩
    exact ⟨inHash, hin, next, hnext, outHash, hout, rfl, rfl⟩

/-- A stage that is not recorded has failed, or there was no fingerprint before or after it. -/
theorem Stage.recorded_eq_error {stage : Stage α ε} {artifact : α} {error : ε} :
    stage.recorded fingerprint artifact = .error error ↔
      fingerprint artifact = .error error ∨
      (∃ inHash, fingerprint artifact = .ok inHash) ∧ (stage.run artifact = .error error ∨
        ∃ next, stage.run artifact = .ok next ∧ fingerprint next = .error error) := by
  simp only [recorded, bind_eq_error, map_eq_error, exists_and_right]

/-! ## Artifacts -/

/-- What stages make of an artifact, each one of what the stage before it made. -/
def composed (stages : List (Stage α ε)) (artifact : α) : Except ε α :=
  stages.foldlM (fun artifact stage => stage.run artifact) artifact

theorem composed_cons (stage : Stage α ε) (stages : List (Stage α ε)) (artifact : α) :
    composed (stage :: stages) artifact = (stage.run artifact).bind (composed stages) := rfl

theorem runStages_cons_eq_ok {stage : Stage α ε} {stages : List (Stage α ε)} {artifact last : α}
    {records : List StageRecord} :
    runStages fingerprint (stage :: stages) artifact = .ok (last, records) ↔
      ∃ next record rest, stage.recorded fingerprint artifact = .ok (next, record) ∧
        runStages fingerprint stages next = .ok (last, rest) ∧ records = record :: rest := by
  rw [runStages, bind_eq_ok]
  constructor
  · rintro ⟨⟨next, record⟩, hrecorded, hrest⟩
    obtain ⟨⟨_, rest⟩, hstages, heq⟩ := map_eq_ok.1 hrest
    cases heq
    exact ⟨next, record, rest, hrecorded, hstages, rfl⟩
  · rintro ⟨next, record, rest, hrecorded, hstages, rfl⟩
    exact ⟨(next, record), hrecorded, map_eq_ok.2 ⟨_, hstages, rfl⟩⟩

/-- A run that succeeds returns what the stages make of the input. -/
theorem composed_of_runStages {stages : List (Stage α ε)} {input output : α}
    {records : List StageRecord}
    (h : runStages fingerprint stages input = .ok (output, records)) :
    composed stages input = .ok output := by
  induction stages generalizing input records with
  | nil =>
      cases h
      rfl
  | cons stage stages ih =>
      obtain ⟨next, record, rest, hrecorded, hrest, rfl⟩ := runStages_cons_eq_ok.1 h
      obtain ⟨_, _, -, hnext, -, -⟩ := Stage.recorded_eq_ok.1 hrecorded
      rw [composed_cons, hnext]
      exact ih hrest

/-- A run that fails does so at a stage that comes behind stages that have been recorded. -/
theorem exists_failing_stage {stages : List (Stage α ε)} {input : α} {error : ε}
    (h : runStages fingerprint stages input = .error error) :
    ∃ earlier stage later artifact records, stages = earlier ++ stage :: later ∧
      runStages fingerprint earlier input = .ok (artifact, records) ∧
      stage.recorded fingerprint artifact = .error error := by
  induction stages generalizing input with
  | nil => cases h
  | cons stage stages ih =>
      cases hrecorded : stage.recorded fingerprint input with
      | error e =>
          rw [runStages, hrecorded] at h
          cases h
          exact ⟨[], stage, stages, input, [], rfl, rfl, hrecorded⟩
      | ok outcome =>
          obtain ⟨next, record⟩ := outcome
          rw [runStages, hrecorded, Except.bind, map_eq_error] at h
          obtain ⟨earlier, failing, later, artifact, records, rfl, hearlier, hfailing⟩ := ih h
          exact ⟨stage :: earlier, failing, later, artifact, record :: records, rfl,
            runStages_cons_eq_ok.2 ⟨next, record, records, hrecorded, hearlier, rfl⟩, hfailing⟩

/-! ## Records -/

/-- The records lead from one fingerprint to another, each one going on where the one before it
ended. -/
def Links : String → List StageRecord → String → Prop
  | first, [], last => first = last
  | first, record :: records, last => record.inHash = first ∧ Links record.outHash records last

/-- Where there is a stage, the input and the output have fingerprints. -/
theorem links_of_runStages {stage : Stage α ε} {stages : List (Stage α ε)} {input output : α}
    {records : List StageRecord}
    (h : runStages fingerprint (stage :: stages) input = .ok (output, records)) :
    ∃ first last, fingerprint input = .ok first ∧ fingerprint output = .ok last ∧
      Links first records last := by
  induction stages generalizing stage input records with
  | nil =>
      obtain ⟨next, record, rest, hrecorded, hrest, rfl⟩ := runStages_cons_eq_ok.1 h
      obtain ⟨inHash, outHash, hin, -, hout, rfl⟩ := Stage.recorded_eq_ok.1 hrecorded
      cases hrest
      exact ⟨inHash, outHash, hin, hout, rfl, rfl⟩
  | cons second stages ih =>
      obtain ⟨next, record, rest, hrecorded, hrest, rfl⟩ := runStages_cons_eq_ok.1 h
      obtain ⟨inHash, outHash, hin, -, hout, rfl⟩ := Stage.recorded_eq_ok.1 hrecorded
      obtain ⟨first, last, hfirst, hlast, hlinks⟩ := ih hrest
      rw [hout] at hfirst
      cases hfirst
      exact ⟨inHash, last, hin, hlast, rfl, hlinks⟩

theorem Links.isChain {records : List StageRecord} {first last : String}
    (h : Links first records last) :
    records.IsChain fun record next => record.outHash = next.inHash := by
  induction records generalizing first with
  | nil => exact .nil
  | cons record records ih =>
      cases records with
      | nil => exact .singleton _
      | cons next records => exact .cons_cons h.2.1.symm (ih h.2)

theorem Links.getLast? {record : StageRecord} {records : List StageRecord} {first last : String}
    (h : Links first (record :: records) last) :
    (record :: records).getLast?.map StageRecord.outHash = some last := by
  induction records generalizing record first with
  | nil => exact congrArg some h.2
  | cons next records ih =>
      rw [List.getLast?_cons_cons]
      exact ih h.2

/-- The records begin with the fingerprint of the input, go on where they ended, and end with the
fingerprint of the output. -/
theorem chain_of_runStages {stages : List (Stage α ε)} {input output : α}
    {records : List StageRecord}
    (h : runStages fingerprint stages input = .ok (output, records)) :
    records.head?.map (fun record => .ok record.inHash) =
        (if stages.isEmpty then none else some (fingerprint input)) ∧
      records.IsChain (fun record next => record.outHash = next.inHash) ∧
      (records.getLast?.map StageRecord.outHash).map .ok =
        (if stages.isEmpty then none else some (fingerprint output)) := by
  cases stages with
  | nil =>
      cases h
      exact ⟨rfl, .nil, rfl⟩
  | cons stage stages =>
      obtain ⟨first, last, hfirst, hlast, hlinks⟩ := links_of_runStages h
      obtain ⟨_, record, rest, -, -, rfl⟩ := runStages_cons_eq_ok.1 h
      refine ⟨?_, hlinks.isChain, ?_⟩
      · rw [hfirst, ← hlinks.1]
        rfl
      · rw [hlinks.getLast?, hlast]
        rfl

/-- There is one record for each stage. -/
theorem ids_of_runStages {stages : List (Stage α ε)} {input output : α}
    {records : List StageRecord}
    (h : runStages fingerprint stages input = .ok (output, records)) :
    records.map StageRecord.id = stages.map Stage.id := by
  induction stages generalizing input records with
  | nil =>
      cases h
      rfl
  | cons stage stages ih =>
      obtain ⟨next, record, rest, hrecorded, hrest, rfl⟩ := runStages_cons_eq_ok.1 h
      obtain ⟨_, _, -, -, -, rfl⟩ := Stage.recorded_eq_ok.1 hrecorded
      rw [List.map_cons, List.map_cons, ih hrest]

/-- The record of a stage has the fingerprints of what the stage got and of what it made. -/
theorem getElem?_of_runStages {earlier later : List (Stage α ε)} {stage : Stage α ε}
    {input before after output : α} {records : List StageRecord}
    (h : runStages fingerprint (earlier ++ stage :: later) input = .ok (output, records))
    (hbefore : composed earlier input = .ok before) (hafter : stage.run before = .ok after) :
    ∃ inHash outHash, fingerprint before = .ok inHash ∧ fingerprint after = .ok outHash ∧
      records[earlier.length]? =
        some { id := stage.id, inHash := inHash, outHash := outHash,
               deterministic := stage.deterministic } := by
  induction earlier generalizing input records with
  | nil =>
      cases hbefore
      obtain ⟨next, record, rest, hrecorded, -, rfl⟩ := runStages_cons_eq_ok.1 h
      obtain ⟨inHash, outHash, hin, hnext, hout, rfl⟩ := Stage.recorded_eq_ok.1 hrecorded
      rw [hafter] at hnext
      cases hnext
      exact ⟨inHash, outHash, hin, hout, rfl⟩
  | cons first earlier ih =>
      obtain ⟨next, record, rest, hrecorded, hrest, rfl⟩ := runStages_cons_eq_ok.1 h
      obtain ⟨_, _, -, hnext, -, -⟩ := Stage.recorded_eq_ok.1 hrecorded
      rw [composed_cons, hnext] at hbefore
      obtain ⟨inHash, outHash, hin, hout, hget⟩ := ih hrest hbefore
      refine ⟨inHash, outHash, hin, hout, ?_⟩
      rw [List.length_cons, List.getElem?_cons_succ, hget]

/-- Stages that leave the artifact as it is record that nothing happened. -/
theorem runStages_eq_of_fixed {stages : List (Stage α ε)} {artifact : α} {hash : String}
    (hhash : fingerprint artifact = .ok hash)
    (h : ∀ stage ∈ stages, stage.run artifact = .ok artifact) :
    runStages fingerprint stages artifact = .ok (artifact, stages.map fun stage =>
      { id := stage.id, inHash := hash, outHash := hash,
        deterministic := stage.deterministic }) := by
  induction stages with
  | nil => rfl
  | cons stage stages ih =>
      rw [List.forall_mem_cons] at h
      have hrecorded := Stage.recorded_eq_ok.2 ⟨hash, hash, hhash, h.1, hhash, rfl⟩
      exact runStages_cons_eq_ok.2 ⟨artifact, _, _, hrecorded, ih h.2, rfl⟩

/-! ## Stages that have run -/

/-- The stage, with a log of the stages that have run beside the artifact and beside the error. -/
def Stage.logged (stage : Stage α ε) : Stage (α × List (Stage α ε)) (ε × List (Stage α ε)) where
  id := stage.id
  run := fun (artifact, log) =>
    match stage.run artifact with
    | .error error => .error (error, log ++ [stage])
    | .ok next => .ok (next, log ++ [stage])
  deterministic := stage.deterministic

/-- The fingerprint of an artifact with a log. The log stands beside the error too. -/
def fingerprintLogged (fingerprint : α → Except ε String) (entry : α × List (Stage α ε)) :
    Except (ε × List (Stage α ε)) String :=
  (fingerprint entry.1).mapError fun error => (error, entry.2)

theorem fingerprintLogged_of_ok {artifact : α} {hash : String}
    (h : fingerprint artifact = .ok hash) (log : List (Stage α ε)) :
    fingerprintLogged fingerprint (artifact, log) = .ok hash := by
  rw [fingerprintLogged, h]
  rfl

theorem fingerprintLogged_of_error {artifact : α} {error : ε}
    (h : fingerprint artifact = .error error) (log : List (Stage α ε)) :
    fingerprintLogged fingerprint (artifact, log) = .error (error, log) := by
  rw [fingerprintLogged, h]
  rfl

/-- The stages that run when the pipeline is given the input, in the order in which they run. -/
def stagesRun (fingerprint : α → Except ε String) (stages : List (Stage α ε)) (input : α) :
    List (Stage α ε) :=
  match runPipeline (fingerprintLogged fingerprint) (stages.map Stage.logged) (input, []) with
  | .error (_, log) => log
  | .ok ((_, log), _) => log

theorem Stage.recorded_logged {stage : Stage α ε} {artifact next : α} {record : StageRecord}
    (h : stage.recorded fingerprint artifact = .ok (next, record)) (log : List (Stage α ε)) :
    stage.logged.recorded (fingerprintLogged fingerprint) (artifact, log) =
      .ok ((next, log ++ [stage]), record) := by
  obtain ⟨inHash, outHash, hin, hnext, hout, rfl⟩ := recorded_eq_ok.1 h
  have hrun : stage.logged.run (artifact, log) = .ok (next, log ++ [stage]) := by
    simp only [logged, hnext]
  exact recorded_eq_ok.2 ⟨inHash, outHash, fingerprintLogged_of_ok hin log, hrun,
    fingerprintLogged_of_ok hout _, rfl⟩

/-- A stage that is not recorded is in the log if it has run, whether it has failed or what it made
has no fingerprint. -/
theorem Stage.exists_recorded_logged_eq_error {stage : Stage α ε} {artifact : α} {error : ε}
    (h : stage.recorded fingerprint artifact = .error error) :
    ∃ ran, (∀ log, stage.logged.recorded (fingerprintLogged fingerprint) (artifact, log) =
        .error (error, log ++ ran)) ∧
      (stage.run artifact = .error error ∧ ran = [stage] ∨
        fingerprint artifact = .error error ∧ ran = [] ∨
        ∃ next, stage.run artifact = .ok next ∧ fingerprint next = .error error ∧
          ran = [stage]) := by
  obtain hin | ⟨⟨inHash, hin⟩, hrun | ⟨next, hnext, hout⟩⟩ := recorded_eq_error.1 h
  · refine ⟨[], fun log => ?_, .inr (.inl ⟨hin, rfl⟩)⟩
    rw [List.append_nil]
    exact recorded_eq_error.2 (.inl (fingerprintLogged_of_error hin log))
  · refine ⟨[stage], fun log => ?_, .inl ⟨hrun, rfl⟩⟩
    have hlogged : stage.logged.run (artifact, log) = .error (error, log ++ [stage]) := by
      simp only [logged, hrun]
    exact recorded_eq_error.2 (.inr ⟨⟨inHash, fingerprintLogged_of_ok hin log⟩, .inl hlogged⟩)
  · refine ⟨[stage], fun log => ?_, .inr (.inr ⟨next, hnext, hout, rfl⟩)⟩
    have hlogged : stage.logged.run (artifact, log) = .ok (next, log ++ [stage]) := by
      simp only [logged, hnext]
    exact recorded_eq_error.2 (.inr ⟨⟨inHash, fingerprintLogged_of_ok hin log⟩,
      .inr ⟨_, hlogged, fingerprintLogged_of_error hout _⟩⟩)

theorem runStages_logged {stages : List (Stage α ε)} {input output : α}
    {records : List StageRecord}
    (h : runStages fingerprint stages input = .ok (output, records)) (log : List (Stage α ε)) :
    runStages (fingerprintLogged fingerprint) (stages.map Stage.logged) (input, log) =
      .ok ((output, log ++ stages), records) := by
  induction stages generalizing input records log with
  | nil =>
      cases h
      rw [List.append_nil]
      rfl
  | cons stage stages ih =>
      obtain ⟨next, record, rest, hrecorded, hrest, rfl⟩ := runStages_cons_eq_ok.1 h
      have htail := ih hrest (log ++ [stage])
      rw [List.append_assoc, List.singleton_append] at htail
      exact runStages_cons_eq_ok.2
        ⟨_, record, rest, Stage.recorded_logged hrecorded log, htail, rfl⟩

/-- When recording a stage fails, the run ends with the log that it has then. -/
theorem runStages_logged_eq_error {earlier : List (Stage α ε)} {stage : Stage α ε}
    {input artifact : α} {records : List StageRecord} {error : ε} {ran : List (Stage α ε)}
    (hearlier : runStages fingerprint earlier input = .ok (artifact, records))
    (hstage : ∀ log, stage.logged.recorded (fingerprintLogged fingerprint) (artifact, log) =
      .error (error, log ++ ran)) (later log : List (Stage α ε)) :
    runStages (fingerprintLogged fingerprint) ((earlier ++ stage :: later).map Stage.logged)
      (input, log) = .error (error, log ++ (earlier ++ ran)) := by
  induction earlier generalizing input records log with
  | nil =>
      cases hearlier
      rw [List.nil_append, List.map_cons, runStages, hstage, List.nil_append]
      rfl
  | cons first earlier ih =>
      obtain ⟨next, record, rest, hrecorded, hrest, rfl⟩ := runStages_cons_eq_ok.1 hearlier
      rw [List.cons_append, List.map_cons, runStages, Stage.recorded_logged hrecorded, Except.bind,
        map_eq_error, ih hrest]
      simp

/-- A run that fails comes to a stage that fails on what the stages before it made, or to an
artifact without a fingerprint in front of a stage or behind it. No stage behind it runs. -/
theorem exists_stop {stages : List (Stage α ε)} {input : α} {error : ε}
    (h : runStages fingerprint stages input = .error error) :
    ∃ earlier stage later artifact, stages = earlier ++ stage :: later ∧
      composed earlier input = .ok artifact ∧
      (stage.run artifact = .error error ∧
          stagesRun fingerprint stages input = earlier ++ [stage] ∨
        fingerprint artifact = .error error ∧ stagesRun fingerprint stages input = earlier ∨
        ∃ next, stage.run artifact = .ok next ∧ fingerprint next = .error error ∧
          stagesRun fingerprint stages input = earlier ++ [stage]) := by
  obtain ⟨earlier, stage, later, artifact, records, rfl, hearlier, hstage⟩ :=
    exists_failing_stage h
  obtain ⟨ran, hlogged, hcause⟩ := Stage.exists_recorded_logged_eq_error hstage
  have hran : stagesRun fingerprint (earlier ++ stage :: later) input = earlier ++ ran := by
    rw [stagesRun, runPipeline, runStages_logged_eq_error hearlier hlogged]
    rfl
  refine ⟨earlier, stage, later, artifact, rfl, composed_of_runStages hearlier, ?_⟩
  rw [hran]
  obtain ⟨hrun, rfl⟩ | ⟨hin, rfl⟩ | ⟨next, hnext, hout, rfl⟩ := hcause
  · exact .inl ⟨hrun, rfl⟩
  · exact .inr (.inl ⟨hin, List.append_nil _⟩)
  · exact .inr (.inr ⟨next, hnext, hout, rfl⟩)

/-! ## The report -/

/-- Every artifact has a fingerprint, as all of them can be encoded. -/
def AlwaysFingerprints (fingerprint : α → Except ε String) : Prop :=
  ∀ artifact, ∃ hash, fingerprint artifact = .ok hash

/-- A run that succeeds returns the composition of its stages, and its records are an unbroken chain
of fingerprints with one record for each stage. A run that fails does so in the first stage that
fails, on what the stages before it made, or at an artifact that has no fingerprint; where every
artifact has one, it does so in a stage. No stage behind runs. -/
theorem runPipeline_provenance (fingerprint : α → Except ε String) (stages : List (Stage α ε))
    (input : α) :
    (∀ output report, runPipeline fingerprint stages input = .ok (output, report) →
      composed stages input = .ok output ∧
      report.stages.map StageRecord.id = stages.map Stage.id ∧
      report.stages.head?.map (fun record => .ok record.inHash) =
        (if stages.isEmpty then none else some (fingerprint input)) ∧
      report.stages.IsChain (fun record next => record.outHash = next.inHash) ∧
      report.outputHash.map .ok =
        (if stages.isEmpty then none else some (fingerprint output)) ∧
      stagesRun fingerprint stages input = stages) ∧
    (∀ error, runPipeline fingerprint stages input = .error error →
      ∃ earlier stage later artifact, stages = earlier ++ stage :: later ∧
        composed earlier input = .ok artifact ∧
        (stage.run artifact = .error error ∧
            stagesRun fingerprint stages input = earlier ++ [stage] ∨
          fingerprint artifact = .error error ∧ stagesRun fingerprint stages input = earlier ∨
          ∃ next, stage.run artifact = .ok next ∧ fingerprint next = .error error ∧
            stagesRun fingerprint stages input = earlier ++ [stage])) ∧
    (AlwaysFingerprints fingerprint →
      ∀ error, runPipeline fingerprint stages input = .error error →
        ∃ earlier stage later artifact, stages = earlier ++ stage :: later ∧
          composed earlier input = .ok artifact ∧ stage.run artifact = .error error ∧
          stagesRun fingerprint stages input = earlier ++ [stage]) := by
  refine ⟨fun output report h => ?_, fun error h => exists_stop (map_eq_error.1 h),
    fun hfingerprint error h => ?_⟩
  · obtain ⟨⟨_, records⟩, hrun, heq⟩ := map_eq_ok.1 h
    cases heq
    have hran : stagesRun fingerprint stages input = stages := by
      rw [stagesRun, runPipeline, runStages_logged hrun]
      rfl
    obtain ⟨hhead, hchain, hlast⟩ := chain_of_runStages hrun
    exact ⟨composed_of_runStages hrun, ids_of_runStages hrun, hhead, hchain, hlast, hran⟩
  · obtain ⟨earlier, stage, later, artifact, hstages, hearlier, hcause⟩ :=
      exists_stop (map_eq_error.1 h)
    obtain ⟨hrun, hran⟩ | ⟨hin, -⟩ | ⟨next, -, hout, -⟩ := hcause
    · exact ⟨earlier, stage, later, artifact, hstages, hearlier, hrun, hran⟩
    · obtain ⟨hash, hhash⟩ := hfingerprint artifact
      rw [hin] at hhash
      cases hhash
    · obtain ⟨hash, hhash⟩ := hfingerprint next
      rw [hout] at hhash
      cases hhash

/-- A grammar whose only rule refers to a rule that is not there. -/
def strayGrammar : Grammar where
  root := some "main"
  children := [.rule { id := "main", body := [.literal " hi ", .ruleRef "#gone"] }]

theorem inlined_strayGrammar :
    strayGrammar.normalized.inlined = .error (.unresolvedReference "#gone") := by
  cbv

/-- Every grammar has a fingerprint. So a pipeline that normalizes and tokenizes comes to its end,
and one that inlines in between ends there. -/
theorem runPipeline_provenance_strayGrammar :
    AlwaysFingerprints Grammar.fingerprint ∧
      (∃ report, runPipeline Grammar.fingerprint [normalizeStage, tokenizeStage] strayGrammar =
          .ok (strayGrammar.normalized.tokenized, report) ∧
        report.stages.map StageRecord.id = [normalizeStage.id, tokenizeStage.id] ∧
        report.outputHash.map .ok = some strayGrammar.normalized.tokenized.fingerprint) ∧
      runPipeline Grammar.fingerprint [normalizeStage, inlineStage, tokenizeStage] strayGrammar =
        .error (.unresolvedReference "#gone") ∧
      ∃ earlier stage later artifact,
        [normalizeStage, inlineStage, tokenizeStage] = earlier ++ stage :: later ∧
        composed earlier strayGrammar = .ok artifact ∧
        stage.run artifact = .error (.unresolvedReference "#gone") ∧
        stagesRun Grammar.fingerprint [normalizeStage, inlineStage, tokenizeStage] strayGrammar =
          earlier ++ [stage] := by
  have hfingerprint : AlwaysFingerprints Grammar.fingerprint := fun _ => ⟨_, rfl⟩
  have hsuccess : runPipeline Grammar.fingerprint [normalizeStage, tokenizeStage] strayGrammar =
      .ok (strayGrammar.normalized.tokenized, _) := rfl
  have hfailure : runPipeline Grammar.fingerprint [normalizeStage, inlineStage, tokenizeStage]
      strayGrammar = .error (.unresolvedReference "#gone") := by
    simp only [runPipeline, runStages, Stage.recorded, Grammar.fingerprint, normalizeStage,
      inlineStage, Except.bind, Except.map, inlined_strayGrammar]
  obtain ⟨-, hids, -, -, hlast, -⟩ := (runPipeline_provenance _ _ _).1 _ _ hsuccess
  exact ⟨hfingerprint, ⟨_, hsuccess, hids, hlast⟩, hfailure,
    (runPipeline_provenance _ _ _).2.2 hfingerprint _ hfailure⟩

end SpeechGrammar
