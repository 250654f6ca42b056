import SpeechGrammar.Fingerprint.Encoding

set_option autoImplicit false

/-!
# Pipelines

A pipeline runs stages one after the other on an artifact and records, for each stage, the
fingerprint of the artifact before and after it. The first stage that fails ends the run, and so
does an artifact without a fingerprint. Preparing a grammar is the pipeline that inlines,
normalizes and tokenizes it.
-/

namespace SpeechGrammar

/-- A stage of a pipeline. In a run each stage is used once, so what it makes of an artifact there
is a function of the artifact. The flag is what the stage says about other runs: that it makes the
same of the same artifact every time. It goes into the record and has no other meaning. -/
structure Stage (α ε : Type) where
  id : String
  run : α → Except ε α
  deterministic : Bool := true

/-- What one stage did to the artifact. -/
structure StageRecord where
  id : String
  inHash : String
  outHash : String
  deterministic : Bool
deriving Repr, DecidableEq

/-- The stage left the artifact unchanged. -/
def StageRecord.isNoop (r : StageRecord) : Bool := r.inHash == r.outHash

/-- The record of a run. -/
structure Report where
  engine : String
  pipelineId : String
  stages : List StageRecord
deriving Repr, DecidableEq

/-- The fingerprint of the last artifact, if there was a stage. -/
def Report.outputHash (r : Report) : Option String := r.stages.getLast?.map StageRecord.outHash

/-- The engine that runs pipelines. -/
def engineName : String := "grxml@1.0.0"

/-- The part of a stage id before its first dot. -/
def shortId (id : String) : String := String.ofList (id.toList.takeWhile (· != '.'))

/-- The name of a pipeline: the short ids of its stages, with arrows between them. -/
def pipelineName (ids : List String) : String := "→".intercalate (ids.map shortId)

/-- Run one stage on an artifact and record it. The fingerprint is the hash of what the artifact is
encoded as. It is taken before and after the stage, and an artifact that cannot be encoded has
none. -/
def Stage.recorded {α ε : Type} (fingerprint : α → Except ε String) (stage : Stage α ε)
    (artifact : α) : Except ε (α × StageRecord) :=
  (fingerprint artifact).bind fun inHash =>
    (stage.run artifact).bind fun next =>
      (fingerprint next).map fun outHash =>
        (next, { id := stage.id, inHash := inHash, outHash := outHash,
                 deterministic := stage.deterministic })

/-- Run stages in order on an artifact and record them. -/
def runStages {α ε : Type} (fingerprint : α → Except ε String) :
    List (Stage α ε) → α → Except ε (α × List StageRecord)
  | [], artifact => .ok (artifact, [])
  | stage :: stages, artifact =>
      (stage.recorded fingerprint artifact).bind fun (next, record) =>
        (runStages fingerprint stages next).map fun (last, records) => (last, record :: records)

/-- Run a pipeline and report on it. -/
def runPipeline {α ε : Type} (fingerprint : α → Except ε String) (stages : List (Stage α ε))
    (artifact : α) : Except ε (α × Report) :=
  (runStages fingerprint stages artifact).map fun (last, records) =>
    (last, ⟨engineName, pipelineName (stages.map Stage.id), records⟩)

/-! ## Preparing a grammar -/

/-- Inline references and keep the root rule only. -/
def inlineStage : Stage Grammar Error where
  id := "inline.rules.v1"
  run := Grammar.inlined

/-- Normalize white space. -/
def normalizeStage : Stage Grammar Error where
  id := "normalize.whitespace.v1"
  run g := .ok g.normalized

/-- Split rule text into tokens. -/
def tokenizeStage : Stage Grammar Error where
  id := "tokenize.text.v1"
  run g := .ok g.tokenized

/-- The stages that prepare a grammar. -/
def standardStages : List (Stage Grammar Error) := [inlineStage, normalizeStage, tokenizeStage]

/-- The prepared form of a grammar and the report on it. -/
def Grammar.prepared (g : Grammar) : Except Error (Grammar × Report) :=
  runPipeline Grammar.fingerprint standardStages g

end SpeechGrammar
