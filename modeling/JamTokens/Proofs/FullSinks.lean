import JamTokens.Proofs.Formats
import JamTokens.Proofs.TextFeeds

/-!
# Sinks that fill up

A run that prints into a sink with little room does what the run into a sink
without a limit does, up to the first byte that is refused.  There it ends, and
that byte tells with which error: a byte of a JSON object with an error of JSON,
any other with the failure of the sink.
-/

set_option autoImplicit false

namespace JamTokens

/-- The error of a run whose sink refuses a byte.  Of what is printed in JSON, all bytes belong to
objects but the line feeds behind them. -/
def RunError.ofRefusal (format : OutputFormat) (refused : UInt8) (f : Failure) : RunError :=
  if format = .json ∧ refused ≠ 10 then .json (.ofWords f.message) else .io f

theorem RunError.ofRefusal_plain (refused : UInt8) (f : Failure) :
    ofRefusal .plain refused f = .io f := if_neg fun h => nomatch h.1

theorem RunError.ofRefusal_newline (format : OutputFormat) (f : Failure) :
    ofRefusal format 10 f = .io f := if_neg fun h => h.2 rfl

/-! ## Bytes -/

theorem extract_of_size_le {bytes : ByteArray} {n : Nat} (h : bytes.size ≤ n) :
    bytes.extract 0 n = bytes := by
  apply ByteArray.ext
  rw [ByteArray.data_extract]
  exact Array.extract_eq_self_of_le h

theorem extract_append_of_size_le {front : ByteArray} (rest : ByteArray) {n : Nat}
    (h : front.size ≤ n) :
    (front ++ rest).extract 0 n = front ++ rest.extract 0 (n - front.size) := by
  rw [ByteArray.extract_append, extract_of_size_le h, Nat.zero_sub]

theorem extract_append_of_le_size {front : ByteArray} (rest : ByteArray) {n : Nat}
    (h : n ≤ front.size) : (front ++ rest).extract 0 n = front.extract 0 n := by
  rw [ByteArray.extract_append, Nat.sub_eq_zero_of_le h, Nat.zero_sub, ByteArray.extract_same,
    ByteArray.append_empty]

theorem TokenRecord.newline_not_mem_object (r : TokenRecord) :
    10 ∉ r.json.toUTF8.data.toList := by
  rw [Utf8.toList_toUTF8]
  exact Source.newline_not_mem_encode r.newline_not_mem_json

theorem TokenRecord.getElem_object_ne (r : TokenRecord) {n : Nat} (h : n < r.json.toUTF8.size) :
    r.json.toUTF8[n] ≠ 10 := by
  intro same
  apply r.newline_not_mem_object
  rw [← same]
  exact Array.mem_toList_iff.mpr (Array.getElem_mem h)

/-! ## Writes -/

namespace Sink

variable {s : Sink} {n : Nat}

theorem write_whole (room : s.room = some n) {bytes : ByteArray} (fits : bytes.size ≤ n) :
    s.write bytes = (.ok (), { s with
      taken := s.taken ++ bytes, room := some (n - bytes.size), flushed := false }) := by
  unfold write
  rw [room]
  dsimp only
  rw [if_pos fits, extract_of_size_le fits]

theorem write_refused (room : s.room = some n) {bytes : ByteArray} (less : n < bytes.size) :
    s.write bytes = (.error s.refusal, { s with
      taken := s.taken ++ bytes.extract 0 n, room := some (n - bytes.size), flushed := false }) := by
  unfold write
  rw [room]
  dsimp only
  rw [if_neg (Nat.not_le.mpr less)]

theorem size_newline : "\n".toUTF8.size = 1 := by decide

theorem toUTF8_shown_json (r : TokenRecord) :
    (r.shown .json).toUTF8 = r.json.toUTF8 ++ "\n".toUTF8 := by
  simp [TokenRecord.shown]

theorem writeToken_plain (s : Sink) (t : Token) (start : Position) :
    s.writeToken .plain t start =
      ((s.write ((TokenRecord.ofToken t start).shown .plain).toUTF8).1.mapError .io,
        (s.write ((TokenRecord.ofToken t start).shown .plain).toUTF8).2) := by
  simp only [writeToken, TokenRecord.shown]
  rcases s.write ((TokenRecord.ofToken t start).plain ++ "\n").toUTF8 with ⟨f | _, s'⟩ <;> rfl

theorem writeToken_json_inside {s' : Sink} {f : Failure} {t : Token} {start : Position}
    (object : s.write (TokenRecord.ofToken t start).json.toUTF8 = (.error f, s')) :
    s.writeToken .json t start = (.error (.json (.ofWords f.message)), s') := by
  simp only [writeToken, object]

/-- When the object has been taken, the end of its line is a write of its own. -/
theorem writeToken_json_behind {s' : Sink} {t : Token} {start : Position}
    (object : s.write (TokenRecord.ofToken t start).json.toUTF8 = (.ok (), s')) :
    s.writeToken .json t start =
      ((s'.write "\n".toUTF8).1.mapError .io, (s'.write "\n".toUTF8).2) := by
  simp only [writeToken, object]
  rcases s'.write "\n".toUTF8 with ⟨f | _, s''⟩ <;> rfl

theorem writeToken_whole (room : s.room = some n) (format : OutputFormat) (t : Token)
    (start : Position) {row : ByteArray}
    (shown : ((TokenRecord.ofToken t start).shown format).toUTF8 = row) (fits : row.size ≤ n) :
    s.writeToken format t start = (.ok (), { s with
      taken := s.taken ++ row, room := some (n - row.size), flushed := false }) := by
  subst shown
  cases format with
  | plain =>
      rw [writeToken_plain, write_whole room fits]
      rfl
  | json =>
      rw [toUTF8_shown_json] at fits ⊢
      rw [ByteArray.size_append, size_newline] at fits
      rw [writeToken_json_behind (write_whole room (by omega)),
        write_whole rfl (by rw [size_newline]; omega)]
      simp only [ByteArray.append_assoc, ByteArray.size_append, Nat.sub_sub]
      rfl

theorem writeToken_refused (room : s.room = some n) (format : OutputFormat) (t : Token)
    (start : Position) {row : ByteArray}
    (shown : ((TokenRecord.ofToken t start).shown format).toUTF8 = row) (less : n < row.size) :
    (s.writeToken format t start).1 = .error (.ofRefusal format row[n] s.refusal) ∧
      (s.writeToken format t start).2.taken = s.taken ++ row.extract 0 n := by
  cases format with
  | plain =>
      subst shown
      rw [writeToken_plain, write_refused room less, RunError.ofRefusal_plain]
      exact ⟨rfl, rfl⟩
  | json =>
      rw [toUTF8_shown_json] at shown
      subst shown
      rw [ByteArray.size_append, size_newline] at less
      by_cases inside : n < (TokenRecord.ofToken t start).json.toUTF8.size
      · rw [writeToken_json_inside (write_refused room inside),
          ByteArray.getElem_append_left inside, extract_append_of_le_size _ inside.le,
          RunError.ofRefusal, if_pos ⟨rfl, TokenRecord.getElem_object_ne _ inside⟩]
        exact ⟨rfl, rfl⟩
      · -- the object just fits, and the end of its line is refused
        obtain rfl : (TokenRecord.ofToken t start).json.toUTF8.size = n := by omega
        have newline : "\n".toUTF8[0] = 10 := by decide
        rw [writeToken_json_behind (write_whole room (Nat.le_refl _)),
          write_refused (congrArg some (Nat.sub_self _)) (by decide),
          extract_append_of_size_le _ (Nat.le_refl _), ByteArray.getElem_append_right (Nat.le_refl _)]
        simp only [Nat.sub_self, newline, RunError.ofRefusal_newline]
        exact ⟨rfl, ByteArray.append_assoc⟩

end Sink

/-! ## Two runs -/

namespace Printed

/-- The run into a sink with room for `n` bytes ends where the other run has printed more. -/
structure Truncates (short full : Printed) (format : OutputFormat) (refusal : Failure)
    (before output : ByteArray) (n : Nat) : Prop where
  printed : full.sink.taken = before ++ output
  taken : short.sink.taken = before ++ output.extract 0 n
  log : short.log <+: full.log
  whole : output.size ≤ n → short.result = full.result ∧ short.log = full.log
  refused : ∀ less : n < output.size, short.result = .error (.ofRefusal format output[n] refusal)

variable {short full : Printed} {format : OutputFormat} {refusal : Failure}
  {before output row : ByteArray} {n : Nat}

theorem truncates_nothing (printed : full.sink.taken = before) (taken : short.sink.taken = before)
    (result : short.result = full.result) (log : short.log = full.log) :
    short.Truncates full format refusal before .empty n where
  printed := printed.trans ByteArray.append_empty.symm
  taken := by rw [taken, extract_of_size_le (Nat.zero_le n), ByteArray.append_empty]
  log := log ▸ List.prefix_refl _
  whole _ := ⟨result, log⟩
  refused less := absurd less (Nat.not_lt_zero n)

theorem Truncates.logged (h : short.Truncates full format refusal before output n)
    (entries : List LogEntry) :
    (short.logged entries).Truncates (full.logged entries) format refusal before output n where
  printed := h.printed
  taken := h.taken
  log := (List.prefix_append_right_inj entries).mpr h.log
  whole fits := ⟨(h.whole fits).1, congrArg (entries ++ ·) (h.whole fits).2⟩
  refused := h.refused

theorem Truncates.behind (fits : row.size ≤ n)
    (h : short.Truncates full format refusal (before ++ row) output (n - row.size)) :
    short.Truncates full format refusal before (row ++ output) n where
  printed := h.printed.trans ByteArray.append_assoc
  taken := by rw [h.taken, extract_append_of_size_le output fits, ByteArray.append_assoc]
  log := h.log
  whole fits' := h.whole (by rw [ByteArray.size_append] at fits'; omega)
  refused less := by
    have less' : n - row.size < output.size := by rw [ByteArray.size_append] at less; omega
    rw [h.refused less', ByteArray.getElem_append_right fits]

theorem truncates_line (output : ByteArray) (less : n < row.size)
    (printed : full.sink.taken = before ++ row ++ output)
    (taken : short.sink.taken = before ++ row.extract 0 n) (log : short.log = [])
    (result : short.result = .error (.ofRefusal format row[n] refusal)) :
    short.Truncates full format refusal before (row ++ output) n where
  printed := printed.trans ByteArray.append_assoc
  taken := by rw [taken, extract_append_of_le_size output less.le]
  log := log ▸ List.nil_prefix
  whole fits := by rw [ByteArray.size_append] at fits; omega
  refused _ := by rw [result, ByteArray.getElem_append_left less]

end Printed

namespace Lexer

theorem close_truncates (l : Lexer) (format : OutputFormat) (sink : Sink) (n : Nat)
    (result : Except RunError Unit) (log : List LogEntry) :
    (l.close { sink with room := some n } result log).Truncates (l.close sink result log) format
      sink.refusal sink.taken .empty n := by
  unfold close Sink.flush
  cases sink.flushFailure with
  | some f => exact Printed.truncates_nothing rfl rfl rfl rfl
  | none => exact Printed.truncates_nothing rfl rfl rfl rfl

theorem printFrom_truncates (format : OutputFormat) (recover : Bool) (l : Lexer) (sink : Sink)
    (takes : sink.room = none) (n tokens errors : Nat) :
    (l.printFrom format recover { sink with room := some n } tokens errors).Truncates
      (l.printFrom format recover sink tokens errors) format sink.refusal sink.taken
      (TokenRecord.written format (TokenRecord.ofTokens (l.printable recover))) n := by
  induction l using reads_induction generalizing sink n tokens errors with
  | ended l l' called =>
      rw [printFrom_of_end format recover sink tokens errors called,
        printFrom_of_end format recover _ tokens errors called, printable_of_end recover called]
      exact l'.close_truncates format sink n _ _
  | token l l' t called ih =>
      have written := Sink.writeToken_of_room takes format t l'.position
      rw [printable_of_token recover called, TokenRecord.written_ofTokens_cons,
        printFrom_of_token format recover tokens errors called written]
      generalize shown : ((TokenRecord.ofToken t l'.position).shown format).toUTF8 = row
      rw [shown] at written
      by_cases fits : row.size ≤ n
      · have written' := Sink.writeToken_whole (s := { sink with room := some n }) rfl format t
          l'.position shown fits
        rw [printFrom_of_token format recover tokens errors called written']
        exact .behind fits
          (ih { sink with taken := sink.taken ++ row, flushed := false } takes (n - row.size)
            (tokens + 1) errors)
      · have less := Nat.lt_of_not_le fits
        obtain ⟨refused, taken⟩ := Sink.writeToken_refused (s := { sink with room := some n }) rfl
          format t l'.position shown less
        -- the run without a limit goes on to print something
        have goesOn :=
          ih { sink with taken := sink.taken ++ row, flushed := false } takes 0 (tokens + 1) errors
        rw [printFrom_of_refusal format recover tokens errors called (Prod.ext refused rfl)]
        exact Printed.truncates_line _ less goesOn.printed taken rfl rfl
  | error l l' e called ih =>
      cases recovers : recover && !e.isInput with
      | false =>
          rw [printFrom_of_stop format sink tokens errors called recovers,
            printFrom_of_stop format _ tokens errors called recovers,
            printable_of_stop called recovers]
          exact (l'.close_truncates format sink n _ _).logged _
      | true =>
          obtain ⟨rfl, lexical⟩ : recover = true ∧ e.isInput = false := by simpa using recovers
          rcases flushed : l'.flush with ⟨e' | _, l''⟩
          · rw [printFrom_of_failed_flush format sink tokens errors called lexical flushed,
              printFrom_of_failed_flush format _ tokens errors called lexical flushed,
              printable_of_failed_flush called lexical flushed]
            exact Printed.truncates_nothing rfl rfl rfl rfl
          · rw [flushed] at ih
            rw [printFrom_of_error format sink tokens errors called lexical flushed,
              printFrom_of_error format _ tokens errors called lexical flushed,
              printable_of_error called lexical flushed]
            exact (ih sink takes n tokens (errors + 1)).logged _

/-- A sink with room for `n` bytes ends up with that many of what a sink without a limit takes, or
with all.  If that is all the result is the same.  Else it is the refusal of the next byte, whatever
the source has in store behind it.  In JSON that byte belongs to an object, or it is the line feed
behind one: no object has a line feed in it. -/
theorem full_sink_truncates (source : Source) (format : OutputFormat) (recover : Bool)
    (refusal : Failure) (flushFailure : Option Failure) (n : Nat) :
    let run (room : Option Nat) :=
      (ofSource source).print format recover ⟨.empty, room, refusal, flushFailure, true⟩
    let output := (run none).sink.taken
    (run (some n)).sink.taken = output.extract 0 (min n output.size) ∧
      (run (some n)).result =
        (if less : n < output.size then .error (.ofRefusal format output[n] refusal)
          else (run none).result) ∧
      (run (some n)).log <+: (run none).log ∧
      output =
        TokenRecord.written format (TokenRecord.ofTokens ((ofSource source).printable recover)) ∧
      ∀ r : TokenRecord, 10 ∉ r.json.toUTF8.data.toList := by
  intro run output
  have short : (run (some n)).Truncates (run none) format refusal .empty
      (TokenRecord.written format (TokenRecord.ofTokens ((ofSource source).printable recover))) n :=
    printFrom_truncates format recover (ofSource source)
      ⟨.empty, none, refusal, flushFailure, true⟩ rfl n 0 0
  have printed : output = _ := short.printed.trans ByteArray.empty_append
  rw [← printed] at short
  refine ⟨?_, ?_, short.log, printed, TokenRecord.newline_not_mem_object⟩
  · rw [short.taken, ByteArray.empty_append]
    rcases Nat.le_total n output.size with less | fits
    · rw [Nat.min_eq_left less]
    · rw [Nat.min_eq_right fits, extract_of_size_le fits, ByteArray.extract_zero_size]
  · split
    · rename_i less
      exact short.refused less
    · rename_i fits
      exact (short.whole (Nat.le_of_not_lt fits)).1

end Lexer

end JamTokens
