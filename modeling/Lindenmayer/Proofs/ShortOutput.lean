import Lindenmayer.Proofs.Evaluation

/-!
# Output that does not fit

What an evaluation writes is the same documents wherever they go, so an output with a
limit is a front of the output without one. What the evaluation ends with depends on
where the cut is. A result in JSON is two documents, the JSON text and the end of its
last line, and only the first of them fails as JSON. Everything else that is written is
one document, and fails as output.

A failure to write comes before what the result has to say. So an invalid configuration
is a failure of its own only if the report of it could be written.
-/

namespace Lindenmayer

namespace Program

open Evaluation

/-- Either a result goes out as JSON, with the end of its last line as a document of its own,
or there is a single document. -/
theorem documents_cases (options : Options) (config : Config) :
    (options.json = true ∧ options.actionString = false) ∧
        (∃ text, documents options config = [⟨.json, text⟩, ⟨.output, "\n"⟩]) ∨
      ¬ (options.json = true ∧ options.actionString = false) ∧
        ∃ text, documents options config = [⟨.output, text⟩] := by
  rw [documents, documentsOf]
  cases options.actionString with
  | true => exact .inr ⟨by simp, _, rfl⟩
  | false =>
      cases options.json with
      | true => exact .inl ⟨⟨rfl, rfl⟩, _, rfl⟩
      | false => exact .inr ⟨by simp, _, rfl⟩

theorem overflow_documents (options : Options) (config : Config) {capacity size : Nat}
    (hsize : (Document.join (documents options config)).toUTF8.size = size)
    (hover : capacity < size) :
    Document.overflow capacity (documents options config) =
      some (if options.json = true ∧ options.actionString = false ∧ capacity < size - 1 then
        .json Sink.failure else .output Sink.failure) := by
  obtain ⟨hjson, text, hdocuments⟩ | ⟨hother, text, hdocuments⟩ := documents_cases options config
  · have hend : "\n".toUTF8.size = 1 := rfl
    have htotal : size = text.toUTF8.size + 1 := by
      rw [← hsize, hdocuments, Document.size_join_cons, Document.size_join_cons, hend]
      rfl
    rw [hdocuments]
    simp only [Document.overflow, hend]
    by_cases hcut : capacity < text.toUTF8.size
    · rw [if_pos hcut, if_pos ⟨hjson.1, hjson.2, by omega⟩]
    · rw [if_neg hcut, if_pos (by omega), if_neg (by omega)]
  · have htotal : size = text.toUTF8.size := by
      rw [← hsize, hdocuments, Document.size_join_cons]
      rfl
    rw [hdocuments, Document.overflow, if_pos (htotal ▸ hover),
      if_neg (fun h => hother ⟨h.1, h.2.1⟩)]

/-- An evaluation whose output has a limit keeps as much of what it would have written without
one as there is room for. If that is all of it, it ends in the same way. Otherwise it ends with
the failed write, whatever else there would have been to report. -/
theorem evaluate_limited (options : Options) (config : Config) (capacity : Nat) :
    let free := evaluate options config {}
    let limited := evaluate options config { room := some capacity }
    let size := free.sink.kept.size
    limited.sink.kept = free.sink.kept.extract 0 (min capacity size) ∧
    (size ≤ capacity → limited.outcome = free.outcome) ∧
    (capacity < size → limited.outcome = .error
      (if options.json = true ∧ options.actionString = false ∧ capacity < size - 1 then
        .json "failed to write whole buffer" else .output "failed to write whole buffer")) := by
  intro free limited size
  obtain ⟨log, hfree⟩ := evaluate_documents options config {}
  obtain ⟨log', hlimited⟩ := evaluate_documents options config { room := some capacity }
  have hkept : free.sink.kept = (Document.join (documents options config)).toUTF8 := by
    show (evaluate options config {}).sink.kept = _
    rw [hfree, sink_endWith, writeDocuments_unlimited, ByteArray.empty_append]
  have hsize : (Document.join (documents options config)).toUTF8.size = size :=
    (congrArg ByteArray.size hkept).symm
  have hoverflow := Document.overflow_eq_none_iff capacity (documents options config)
  rw [hsize] at hoverflow
  refine ⟨?_, fun hfits => ?_, fun hover => ?_⟩
  · show (evaluate options config { room := some capacity }).sink.kept = _
    rw [hlimited, sink_endWith, writeDocuments_limited, ByteArray.empty_append, ← hkept]
    show free.sink.kept.extract 0 capacity = _
    rcases Nat.le_total size capacity with hfits | hover
    · rw [Nat.min_eq_right hfits, extract_of_size_le hfits, extract_of_size_le (Nat.le_refl _)]
    · rw [Nat.min_eq_left hover]
  · show (evaluate options config { room := some capacity }).outcome =
      (evaluate options config {}).outcome
    rw [hlimited, hfree, writeDocuments_limited, writeDocuments_unlimited, hoverflow.2 hfits,
      outcome_endWith, outcome_endWith]
  · show (evaluate options config { room := some capacity }).outcome = _
    rw [hlimited, writeDocuments_limited, overflow_documents options config hsize hover,
      endWith_failed rfl]
    rfl

end Program

end Lindenmayer
