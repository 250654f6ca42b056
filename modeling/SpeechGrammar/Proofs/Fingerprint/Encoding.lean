import SpeechGrammar.Fingerprint.Encoding
import SpeechGrammar.Proofs.Fingerprint.Json
import SpeechGrammar.Proofs.Pipeline

set_option autoImplicit false

/-!
# A fingerprint identifies a grammar

Nothing of a grammar is lost in its encoding (`Grammar.encode_injective`), and the encoding is
written without ambiguity. So a fingerprint can only stand for two grammars if the hash function
collides on their written encodings, and a stage that leaves the fingerprint as it was has left the
grammar as it was (`fingerprint_identifies`).
-/

namespace SpeechGrammar

/-! ## Encodings -/

theorem Mode.name_injective : Function.Injective Mode.name := by
  intro m n h
  cases m <;> cases n <;> first | rfl | exact absurd h (by decide)

theorem Scope.name_injective : Function.Injective Scope.name := by
  intro m n h
  cases m <;> cases n <;> first | rfl | exact absurd h (by decide)

theorem encodeMode_injective : Function.Injective encodeMode := by
  intro m n h
  cases m with
  | none =>
      cases n with
      | none => rfl
      | some n => cases h
  | some m =>
      cases n with
      | none => cases h
      | some n => rw [Mode.name_injective (Json.string.inj h)]

theorem encodeCount_injective : Function.Injective encodeCount := by
  intro m n h
  exact UInt32.toNat_inj.1 (Int.ofNat.inj (Json.int.inj h))

/-- A value that may be missing is told apart from null if the value itself is not null. -/
theorem map_getD_null_injective {α : Type} {f : α → Json} (hf : Function.Injective f)
    (hnull : ∀ a, f a ≠ .null) : Function.Injective fun o : Option α => (o.map f).getD .null := by
  intro o p h
  cases o with
  | none =>
      cases p with
      | none => rfl
      | some b => exact absurd h.symm (hnull b)
  | some a =>
      cases p with
      | none => exact absurd h (hnull a)
      | some b => rw [hf h]

theorem Repeat.encode_injective : Function.Injective Repeat.encode := by
  rintro ⟨min, max⟩ ⟨min', max'⟩ h
  simp only [Repeat.encode, Json.object.injEq, List.cons.injEq, Prod.mk.injEq, true_and,
    and_true] at h
  obtain ⟨hmin, hmax⟩ := h
  have hcount : ∀ n, encodeCount n ≠ .null := by
    intro n hn
    cases hn
  rw [encodeCount_injective hmin, map_getD_null_injective encodeCount_injective hcount hmax]

theorem encodeAttribute_injective : Function.Injective encodeAttribute := by
  rintro ⟨key, value⟩ ⟨key', value'⟩ h
  simpa [encodeAttribute] using h

theorem Container.encode_injective : Function.Injective Container.encode := by
  intro c d h
  cases c with
  | item occurs =>
      cases d with
      | item occurs' =>
          have hnull : ∀ r : Repeat, r.encode ≠ .null := by
            intro r hr
            cases hr
          simp only [Container.encode, Json.object.injEq, List.cons.injEq, Prod.mk.injEq, true_and,
            and_true] at h
          rw [map_getD_null_injective Repeat.encode_injective hnull h]
      | oneOf => cases h
      | foreign name attributes => simp [Container.encode] at h
  | oneOf =>
      cases d with
      | oneOf => rfl
      | item occurs => cases h
      | foreign name attributes => cases h
  | foreign name attributes =>
      cases d with
      | item occurs => simp [Container.encode] at h
      | oneOf => cases h
      | foreign name' attributes' =>
          simp only [Container.encode, Json.object.injEq, List.cons.injEq, Prod.mk.injEq, true_and,
            and_true, Json.string.injEq, Json.array.injEq] at h
          rw [h.1, List.map_injective_iff.2 encodeAttribute_injective h.2]

mutual

theorem Node.encode_inj : ∀ n m : Node, n.encode = m.encode → n = m
  | .literal s, m, h => by cases m <;> simp_all [Node.encode]
  | .token s, m, h => by cases m <;> simp_all [Node.encode]
  | .ruleRef s, m, h => by cases m <;> simp_all [Node.encode]
  | .tag s, m, h => by cases m <;> simp_all [Node.encode]
  | .element container children, m, h => by
      cases m with
      | element container' children' =>
          simp only [Node.encode, Json.object.injEq, List.cons.injEq, Prod.mk.injEq, true_and,
            and_true, Json.array.injEq] at h
          rw [Container.encode_injective h.1, encodeNodes_inj children children' h.2]
      | _ => simp [Node.encode] at h

theorem encodeNodes_inj : ∀ ns ms : List Node, encodeNodes ns = encodeNodes ms → ns = ms
  | [], [], _ => rfl
  | [], _ :: _, h => by cases h
  | _ :: _, [], h => by cases h
  | n :: ns, m :: ms, h => by
      rw [encodeNodes, encodeNodes, List.cons.injEq] at h
      rw [Node.encode_inj n m h.1, encodeNodes_inj ns ms h.2]

end

theorem Rule.encode_injective : Function.Injective Rule.encode := by
  rintro ⟨id, scope, body⟩ ⟨id', scope', body'⟩ h
  simp only [Rule.encode, Json.object.injEq, List.cons.injEq, Prod.mk.injEq, true_and, and_true,
    Json.string.injEq, Json.array.injEq] at h
  obtain ⟨rfl, hscope, hbody⟩ := h
  rw [Scope.name_injective hscope, encodeNodes_inj body body' hbody]

theorem Child.encode_injective : Function.Injective Child.encode := by
  intro c d h
  cases c with
  | rule r =>
      cases d with
      | rule r' =>
          simp only [Child.encode, Json.object.injEq, List.cons.injEq, Prod.mk.injEq, true_and,
            and_true] at h
          rw [Rule.encode_injective h]
      | node n => simp [Child.encode] at h
  | node n =>
      cases d with
      | rule r => simp [Child.encode] at h
      | node n' =>
          simp only [Child.encode, Json.object.injEq, List.cons.injEq, Prod.mk.injEq, true_and,
            and_true] at h
          rw [Node.encode_inj n n' h]

theorem Json.ofString?_injective : Function.Injective Json.ofString? := by
  intro s t h
  cases s <;> cases t <;> simp_all [Json.ofString?]

/-- Grammars with the same encoding are the same grammar. -/
theorem Grammar.encode_injective : Function.Injective Grammar.encode := by
  rintro ⟨mode, language, baseUri, root, tagFormat, children⟩
    ⟨mode', language', baseUri', root', tagFormat', children'⟩ h
  simp only [Grammar.encode, Json.object.injEq, List.cons.injEq, Prod.mk.injEq, true_and, and_true,
    Json.array.injEq] at h
  obtain ⟨hmode, hlanguage, hbase, hroot, hformat, hchildren⟩ := h
  rw [encodeMode_injective hmode, Json.ofString?_injective hlanguage,
    Json.ofString?_injective hbase, Json.ofString?_injective hroot,
    Json.ofString?_injective hformat, List.map_injective_iff.2 Child.encode_injective hchildren]

/-! ## Bytes -/

theorem byteArray_toList_loop (bytes : ByteArray) (i : Nat) (read : List UInt8) :
    ByteArray.toList.loop bytes i read = read.reverse ++ bytes.data.toList.drop i := by
  fun_induction ByteArray.toList.loop bytes i read with
  | case1 i read hlt ih =>
      have hget : bytes.get! i = bytes.data.toList[i] := getElem!_pos bytes.data i hlt
      have hdrop : bytes.data.toList.drop i =
          bytes.data.toList[i] :: bytes.data.toList.drop (i + 1) := List.drop_eq_getElem_cons hlt
      rw [ih, hget, hdrop, List.reverse_cons, List.append_assoc, List.singleton_append]
  | case2 i read hge => rw [List.drop_eq_nil_of_le (by simpa using hge), List.append_nil]

theorem byteArray_toList_injective : Function.Injective ByteArray.toList := by
  intro xs ys h
  rw [ByteArray.toList, ByteArray.toList, byteArray_toList_loop, byteArray_toList_loop] at h
  exact ByteArray.ext (Array.toList_inj.1 h)

theorem digitChar_inj :
    ∀ m < 16, ∀ n < 16, Nat.digitChar m = Nat.digitChar n → m = n := by decide

theorem hexByte_injective : Function.Injective Blake3.hexByte := by
  intro b c h
  simp only [Blake3.hexByte, List.cons.injEq, and_true] at h
  have hb := b.toNat_lt
  have hc := c.toNat_lt
  have hhigh := digitChar_inj _ (by omega) _ (by omega) h.1
  have hlow := digitChar_inj _ (by omega) _ (by omega) h.2
  exact UInt8.toNat_inj.1 (by omega)

/-- Every byte is written with two digits, so the digits say what the bytes were. -/
theorem flatMap_hexByte_injective :
    Function.Injective fun bytes : List UInt8 => bytes.flatMap Blake3.hexByte := by
  intro bs cs h
  induction bs generalizing cs with
  | nil =>
      cases cs with
      | nil => rfl
      | cons c cs => cases h
  | cons b bs ih =>
      cases cs with
      | nil => cases h
      | cons c cs =>
          obtain ⟨hbyte, hrest⟩ := List.append_inj h rfl
          rw [hexByte_injective hbyte, ih hrest]

/-! ## Fingerprints -/

/-- The bytes that the fingerprint of a grammar is the hash of: its encoding as compact JSON. -/
def Grammar.encodedBytes (g : Grammar) : List UInt8 :=
  (String.ofList g.encode.render).toUTF8.toList

theorem Grammar.fingerprint_eq (g : Grammar) :
    g.fingerprint = .ok ("blake3:" ++ Blake3.hexHash g.encodedBytes) := rfl

/-- Grammars with the same written encoding are the same grammar. -/
theorem Grammar.encodedBytes_injective : Function.Injective Grammar.encodedBytes := by
  intro g h heq
  have hstring := String.toByteArray_inj.1 (byteArray_toList_injective heq)
  exact Grammar.encode_injective (Json.render_injective (String.ofList_injective hstring))

/-- The hash function does not collide on the written encodings of two grammars. -/
def HashesApart (g h : Grammar) : Prop :=
  Blake3.hash g.encodedBytes = Blake3.hash h.encodedBytes → g.encodedBytes = h.encodedBytes

/-- Fingerprints tell grammars apart unless the hash function collides. -/
theorem Grammar.fingerprint_eq_iff {g h : Grammar} (hapart : HashesApart g h) :
    g.fingerprint = h.fingerprint ↔ g = h := by
  refine ⟨fun heq => ?_, fun heq => by rw [heq]⟩
  rw [Grammar.fingerprint_eq, Grammar.fingerprint_eq, Except.ok.injEq, Blake3.hexHash,
    Blake3.hexHash, String.append_right_inj, String.ofList_inj] at heq
  exact Grammar.encodedBytes_injective (hapart (flatMap_hexByte_injective heq))

/-- The bytes that are hashed determine the grammar. So a stage of a pipeline is reported to have
done nothing exactly if it returned the grammar that it was given, unless the hash function collides
on these two. -/
theorem fingerprint_identifies :
    Function.Injective Grammar.encodedBytes ∧
      ∀ (earlier later : List (Stage Grammar Error)) (stage : Stage Grammar Error)
        (input before after output : Grammar) (report : Report),
        runPipeline Grammar.fingerprint (earlier ++ stage :: later) input = .ok (output, report) →
        composed earlier input = .ok before → stage.run before = .ok after →
        HashesApart before after →
          ∃ record, report.stages[earlier.length]? = some record ∧ record.id = stage.id ∧
            (record.isNoop = true ↔ after = before) := by
  refine ⟨Grammar.encodedBytes_injective, ?_⟩
  intro earlier later stage input before after output report hrun hbefore hafter hapart
  obtain ⟨⟨_, records⟩, hstages, heq⟩ := map_eq_ok.1 hrun
  cases heq
  obtain ⟨inHash, outHash, hin, hout, hrecord⟩ := getElem?_of_runStages hstages hbefore hafter
  refine ⟨_, hrecord, rfl, ?_⟩
  rw [StageRecord.isNoop, beq_iff_eq, ← Except.ok.injEq, ← hin, ← hout,
    Grammar.fingerprint_eq_iff hapart, eq_comm]

/-- A grammar that holds nothing but a blank. -/
def blankGrammar : Grammar where
  children := [.node (.literal " ")]

/-- Normalizing takes the blank away, tokenizing has nothing left to do, and the records say so. -/
theorem fingerprint_identifies_blankGrammar :
    HashesApart blankGrammar blankGrammar.normalized ∧
      ∃ report normalizing tokenizing,
        runPipeline Grammar.fingerprint [normalizeStage, tokenizeStage] blankGrammar =
          .ok (blankGrammar.normalized.tokenized, report) ∧
        report.stages[0]? = some normalizing ∧ normalizing.isNoop = false ∧
        report.stages[1]? = some tokenizing ∧ tokenizing.isNoop = true := by
  have hapart : HashesApart blankGrammar blankGrammar.normalized := by
    intro h
    have hne : Blake3.hash blankGrammar.encodedBytes ≠
        Blake3.hash blankGrammar.normalized.encodedBytes := by decide +kernel
    exact absurd h hne
  have hchanged : blankGrammar.normalized ≠ blankGrammar := by decide
  have hsame : blankGrammar.normalized.tokenized = blankGrammar.normalized := by decide
  have hrun : runPipeline Grammar.fingerprint [normalizeStage, tokenizeStage] blankGrammar =
      .ok (blankGrammar.normalized.tokenized, _) := rfl
  obtain ⟨normalizing, hfirst, -, hiff⟩ := fingerprint_identifies.2 [] [tokenizeStage]
    normalizeStage blankGrammar _ _ _ _ hrun rfl rfl hapart
  obtain ⟨tokenizing, hsecond, -, hiff'⟩ := fingerprint_identifies.2 [normalizeStage] []
    tokenizeStage blankGrammar _ _ _ _ hrun rfl rfl (fun _ => by rw [hsame])
  refine ⟨hapart, _, normalizing, tokenizing, hrun, hfirst, ?_, hsecond, hiff'.2 hsame⟩
  rw [Bool.eq_false_iff]
  exact fun h => hchanged (hiff.1 h)

end SpeechGrammar
