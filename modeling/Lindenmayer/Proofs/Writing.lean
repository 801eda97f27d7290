import Lindenmayer.Program

/-!
# Writing to a sink that may be full

A sink with a limit keeps as much as there is room for. The write that goes beyond it
fails, and so does everything after it. Both facts are about bytes and not about
pieces: a text that is written in many pieces leaves behind what it leaves behind in
one, and it fails if that does.

An evaluation writes documents one after the other, and each has a failure of its own in
case it does not fit. What it ends with is the failure of the first document that goes
beyond the limit, and only if all of them fit the ending that it would have had anyway.
-/

namespace Lindenmayer

theorem extract_of_size_le {bytes : ByteArray} {n : Nat} (h : bytes.size ≤ n) :
    bytes.extract 0 n = bytes := by
  rw [← Nat.max_eq_left h, ByteArray.extract_zero_max_size]

namespace Sink

theorem write_limited (room : Nat) (kept : ByteArray) (text : String) :
    ({ room := some room, kept } : Sink).write text =
      ({ room := some (room - text.toUTF8.size), kept := kept ++ text.toUTF8.extract 0 room },
        decide (text.toUTF8.size ≤ room)) := by
  rw [write]
  by_cases hfits : text.toUTF8.size ≤ room
  · simp only [hfits, if_true, extract_of_size_le hfits, decide_true]
  · have hfull : room - text.toUTF8.size = 0 := by omega
    simp only [hfits, if_false, hfull, decide_false]

theorem toUTF8_join_cons (text : String) (texts : List String) :
    (String.join (text :: texts)).toUTF8 = text.toUTF8 ++ (String.join texts).toUTF8 := by
  rw [String.join_cons]
  exact String.toByteArray_append

/-- It makes no difference in how many pieces a text is written. -/
theorem writeAll_eq_write (s : Sink) (texts : List String) :
    s.writeAll texts = s.write (String.join texts) := by
  obtain ⟨room, kept⟩ := s
  induction texts generalizing room kept with
  | nil =>
      have hempty : (String.join []).toUTF8 = ByteArray.empty := rfl
      rw [writeAll, write, hempty]
      cases room <;> simp
  | cons text texts ih =>
      cases room with
      | none => simp only [writeAll, write, toUTF8_join_cons, ih, ByteArray.append_assoc]
      | some room =>
          rw [writeAll, write_limited, write_limited, toUTF8_join_cons, ByteArray.extract_append,
            Nat.zero_sub, ByteArray.size_append]
          by_cases hfits : text.toUTF8.size ≤ room
          · have hrest : (String.join texts).toUTF8.size ≤ room - text.toUTF8.size ↔
                text.toUTF8.size + (String.join texts).toUTF8.size ≤ room := by omega
            simp only [hfits, decide_true, ih, write_limited, hrest, Nat.sub_sub,
              ByteArray.append_assoc]
          · have hfull : room - text.toUTF8.size = 0 := by omega
            have hfull' : room - (text.toUTF8.size + (String.join texts).toUTF8.size) = 0 := by omega
            have hover : ¬ text.toUTF8.size + (String.join texts).toUTF8.size ≤ room := by omega
            simp only [hfits, decide_false, hfull, hfull', hover, ByteArray.extract_same,
              ByteArray.append_empty]

end Sink

/-- A text to be written, with the failure for the case that it does not fit. -/
structure Document where
  failed : String → Failure
  text : String

namespace Evaluation

theorem write_join (e : Evaluation) (failed : String → Failure) (texts : List String) :
    e.write failed texts = e.write failed [String.join texts] := by
  have hone : String.join [String.join texts] = String.join texts := by
    simp [String.join_cons]
  rw [write, write]
  simp only [Sink.writeAll_eq_write, hone]

theorem write_empty (e : Evaluation) (failed : String → Failure) : e.write failed [""] = e := by
  have hjoin : String.join [] = "" := rfl
  rw [← hjoin, ← write_join, write, Sink.writeAll]
  obtain ⟨sink, log, outcome⟩ := e
  cases outcome <;> rfl

/-- Writes documents in order. -/
def writeDocuments (e : Evaluation) (documents : List Document) : Evaluation :=
  documents.foldl (fun e d => e.write d.failed [d.text]) e

/-- Ends the evaluation as given, unless it has failed already. -/
def endWith (e : Evaluation) : Except Failure Unit → Evaluation
  | .ok () => e
  | .error failure => e.failWith failure

theorem write_failed {e : Evaluation} {failure : Failure} (h : e.outcome = .error failure)
    (failed : String → Failure) (texts : List String) : e.write failed texts = e := by
  rw [write, h]

theorem writeDocuments_failed {e : Evaluation} {failure : Failure} (h : e.outcome = .error failure)
    (documents : List Document) : e.writeDocuments documents = e := by
  induction documents with
  | nil => rfl
  | cons d documents ih =>
      rw [writeDocuments, List.foldl_cons, write_failed h]
      exact ih

theorem endWith_failed {e : Evaluation} {failure : Failure} (h : e.outcome = .error failure)
    (ending : Except Failure Unit) : e.endWith ending = e := by
  cases ending with
  | ok => rfl
  | error f => rw [endWith, failWith, h]

theorem sink_endWith (e : Evaluation) (ending : Except Failure Unit) :
    (e.endWith ending).sink = e.sink := by
  cases ending with
  | ok => rfl
  | error failure =>
      rw [endWith, failWith]
      split <;> rfl

theorem outcome_endWith (sink : Sink) (log : Log) (ending : Except Failure Unit) :
    (({ sink, log, outcome := .ok () } : Evaluation).endWith ending).outcome = ending := by
  cases ending <;> rfl

end Evaluation

/-- All that documents say. -/
def Document.join (documents : List Document) : String := String.join (documents.map Document.text)

theorem Document.size_join_cons (d : Document) (documents : List Document) :
    (join (d :: documents)).toUTF8.size = d.text.toUTF8.size + (join documents).toUTF8.size := by
  rw [← ByteArray.size_append]
  exact congrArg ByteArray.size (Sink.toUTF8_join_cons _ _)

/-- The failure of the first document that goes beyond the room there is. -/
def Document.overflow (room : Nat) : List Document → Option Failure
  | [] => none
  | d :: documents =>
      if room < d.text.toUTF8.size then some (d.failed Sink.failure)
      else overflow (room - d.text.toUTF8.size) documents

namespace Evaluation

variable (kept : ByteArray) (log : Log) (documents : List Document)

theorem writeDocuments_unlimited :
    ({ sink := { room := none, kept }, log, outcome := .ok () } : Evaluation).writeDocuments
        documents =
      { sink := { room := none, kept := kept ++ (Document.join documents).toUTF8 }, log,
        outcome := .ok () } := by
  induction documents generalizing kept with
  | nil =>
      have hempty : (Document.join []).toUTF8 = ByteArray.empty := rfl
      rw [writeDocuments, hempty, ByteArray.append_empty]
      rfl
  | cons d documents ih =>
      have hjoin : (Document.join (d :: documents)).toUTF8 =
          d.text.toUTF8 ++ (Document.join documents).toUTF8 := Sink.toUTF8_join_cons _ _
      rw [hjoin, ← ByteArray.append_assoc]
      exact ih (kept ++ d.text.toUTF8)

theorem write_limited (room : Nat) (failed : String → Failure) (text : String) :
    ({ sink := { room := some room, kept }, log, outcome := .ok () } : Evaluation).write failed
        [text] =
      { sink :=
          { room := some (room - text.toUTF8.size), kept := kept ++ text.toUTF8.extract 0 room }
        log
        outcome := if room < text.toUTF8.size then .error (failed Sink.failure) else .ok () } := by
  have hone : String.join [text] = text := by simp [String.join_cons]
  rw [write]
  simp only [Sink.writeAll_eq_write, hone, Sink.write_limited]
  by_cases hover : room < text.toUTF8.size
  · simp only [Nat.not_le.2 hover, decide_false, hover, if_true]
  · simp only [Nat.not_lt.1 hover, decide_true, hover, if_false]

theorem writeDocuments_limited (room : Nat) :
    ({ sink := { room := some room, kept }, log, outcome := .ok () } : Evaluation).writeDocuments
        documents =
      { sink :=
          { room := some (room - (Document.join documents).toUTF8.size)
            kept := kept ++ (Document.join documents).toUTF8.extract 0 room }
        log
        outcome :=
          match Document.overflow room documents with
          | none => .ok ()
          | some failure => .error failure } := by
  induction documents generalizing room kept with
  | nil =>
      have hempty : (Document.join []).toUTF8.extract 0 room = ByteArray.empty :=
        ByteArray.extract_eq_empty_iff.2 (Nat.min_le_right room 0)
      rw [hempty, ByteArray.append_empty]
      rfl
  | cons d documents ih =>
      have hjoin : (Document.join (d :: documents)).toUTF8 =
          d.text.toUTF8 ++ (Document.join documents).toUTF8 := Sink.toUTF8_join_cons _ _
      rw [hjoin, ByteArray.extract_append, Nat.zero_sub, ByteArray.size_append,
        ← ByteArray.append_assoc, Document.overflow, writeDocuments, List.foldl_cons,
        write_limited]
      by_cases hover : room < d.text.toUTF8.size
      · have hfull : room - d.text.toUTF8.size = 0 := by omega
        have hfull' : room - (d.text.toUTF8.size + (Document.join documents).toUTF8.size) = 0 := by
          omega
        rw [if_pos hover, if_pos hover, hfull, hfull', ByteArray.extract_same,
          ByteArray.append_empty]
        exact writeDocuments_failed rfl documents
      · rw [if_neg hover, if_neg hover, ← Nat.sub_sub]
        exact ih (kept ++ d.text.toUTF8.extract 0 room) (room - d.text.toUTF8.size)

end Evaluation

/-- Nothing goes beyond the room if all of it fits, and the other way round. -/
theorem Document.overflow_eq_none_iff (room : Nat) (documents : List Document) :
    overflow room documents = none ↔ (join documents).toUTF8.size ≤ room := by
  induction documents generalizing room with
  | nil => exact iff_of_true rfl (Nat.zero_le room)
  | cons d documents ih =>
      rw [overflow, size_join_cons]
      split
      · next hover => exact iff_of_false (fun h => nomatch h) (by omega)
      · next hfits => rw [ih]; omega

end Lindenmayer
