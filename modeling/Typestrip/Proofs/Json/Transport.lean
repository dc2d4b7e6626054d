import Typestrip.Proofs.Json.Records
import Typestrip.Rpc.Failure

/-!
# Records that travel

Outputs, diagnostics, positions, units and failures are written as records. A record is read back
from its text, and also if it travels inside a message, where its fields are put in ascending order
and the reader gives a value first (`ReadBack`, `records_survive`). What a record does not have leaves
no trace in its text, and the reader fills it in.
-/

namespace Typestrip.Json

/-- What has been written is read back, from its text and as a part of a message. -/
def ReadBack {α : Type} (write : α → Json) (read : Document → Option α) : Prop :=
  ∀ x, (Document.ofChars? (write x).text.toList).bind read = some x ∧
    (parse? (write x).sorted.text.toList).bind (fun j => read j.toDocument) = some x

/-- What is read back however its fields are arranged survives, if it does not nest too deeply. -/
theorem ReadBack.of_arranged {α : Type} {write : α → Json} {read : Document → Option α}
    (hread : ∀ {arrange : Json → Json}, Arrangement arrange →
      ∀ x, read (arrange (write x)).toDocument = some x)
    (hfaithful : ∀ x, (write x).sorted.Faithful) (hdepth : ∀ x, (write x).depth ≤ 127) :
    ReadBack write read := by
  intro x
  have hsorted : (write x).sorted.depth ≤ maxDepth := (depth_sorted_le _).trans (hdepth x)
  rw [Json.text, Json.text, String.toList_ofList, String.toList_ofList, Document.ofChars?_chars,
    (hfaithful x).parse? hsorted]
  exact ⟨hread .id x, hread .sorted x⟩

section Texts

open Document Fields

variable {arrange : Json → Json} {m n : String}

/-- The record of two texts. -/
theorem record?_texts (A : Arrangement arrange) (hne : m ≠ n) (x y : String) :
    record? [m, n] (arrange (.object [(m, .string x), (n, .string y)])).toDocument =
      some [some (.string (some x)), some (.string (some y))] := by
  have hstring (s : String) : (arrange (.string s)).toDocument = .string (some s) := by
    rw [A.string]
    rfl
  rw [record?_arranged A (by simpa using hne) (by simpa using hne)]
  simp [find?, hne.symm, hstring]

theorem faithful_texts (x y : String) :
    (Json.object [(m, .string x), (n, .string y)]).sorted.Faithful := by
  refine faithful_sorted_object ?_
  simp only [List.forall_mem_cons]
  exact ⟨.string x, .string y, List.forall_mem_nil _⟩

end Texts

end Typestrip.Json

namespace Typestrip

open Json Source TypeScript Rpc

theorem Rpc.Failure.ofDocument?_arranged {arrange : Json → Json} (A : Arrangement arrange)
    (f : Failure) : Failure.ofDocument? (arrange f.toJson).toDocument = some f := by
  rw [Failure.ofDocument?, Failure.toJson, record?_texts A (by decide)]
  rfl

theorem TypeScript.SourceUnit.ofDocument?_arranged {arrange : Json → Json} (A : Arrangement arrange)
    (u : SourceUnit) : SourceUnit.ofDocument? (arrange u.toJson).toDocument = some u := by
  rw [SourceUnit.ofDocument?, SourceUnit.toJson, record?_texts A (by decide)]
  rfl

/-- Whatever an output, a diagnostic, a position, a unit or a failure says, it is read back as it was
from its text and from a message, although a record leaves out what it does not have. -/
theorem records_survive :
    ReadBack Output.toJson Output.ofDocument? ∧
    ReadBack Diagnostic.toJson Diagnostic.ofDocument? ∧
    ReadBack Position.toJson Position.ofDocument? ∧
    ReadBack SourceUnit.toJson SourceUnit.ofDocument? ∧
    ReadBack Failure.toJson Failure.ofDocument? ∧
    (∀ o : Output, o.toJson.field? "code" = o.code.map .string ∧
      o.toJson.field? "diagnostic" = o.diagnostic.map Diagnostic.toJson) ∧
    ∀ d : Diagnostic, d.toJson.field? "position" = d.position.map Position.toJson ∧
      d.toJson.field? "expected" =
        if d.expected = [] then none else some (.array (d.expected.map .string)) := by
  refine ⟨.of_arranged Output.ofDocument?_arranged Output.faithful_sorted fun o => ?_,
    .of_arranged Diagnostic.ofDocument?_arranged Diagnostic.faithful_sorted fun d => ?_,
    .of_arranged Position.ofDocument?_arranged Position.faithful_sorted fun p => ?_,
    .of_arranged SourceUnit.ofDocument?_arranged (fun u => faithful_texts u.name u.source)
      fun u => ?_,
    .of_arranged Failure.ofDocument?_arranged (fun f => faithful_texts f.name f.message)
      fun f => ?_, fun o => ?_, fun d => ?_⟩
  · exact o.depth_toJson_le.trans (by decide)
  · exact d.depth_toJson_le.trans (by decide)
  · have hdepth : p.toJson.depth = 1 := rfl
    omega
  · have hdepth : u.toJson.depth = 1 := rfl
    omega
  · have hdepth : f.toJson.depth = 1 := rfl
    omega
  · obtain ⟨error, code, diagnostic⟩ := o
    cases code <;> cases diagnostic <;> simp [Output.toJson, field?, Fields.find?]
  · obtain ⟨kind, message, position, expected⟩ := d
    cases position <;> by_cases hnone : expected = [] <;>
      simp [Diagnostic.toJson, field?, Fields.find?, hnone]

end Typestrip
