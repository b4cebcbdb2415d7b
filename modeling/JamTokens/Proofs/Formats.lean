import JamTokens.Proofs.JsonReading
import JamTokens.Proofs.Telling
import JamTokens.Proofs.TokenTexts

/-!
# The two formats say the same

What is printed in JSON is one object on each line, and each object is read
back as the record it was written from.  A run in plain words ends as the run
in JSON does and prints the same records, without their places.

Plain words are told apart by the blanks between them.  That works because no
text of a token that a lexer makes has a blank in it.
-/

set_option autoImplicit false

namespace JamTokens

open CharClass (isGraphic)

/-! ## Lines -/

/-- The lines of a text, if its last one is ended too. -/
def lines? : List Char → Option (List (List Char))
  | [] => some []
  | c :: rest =>
    if c = '\n' then (lines? rest).map ([] :: ·)
    else
      match lines? rest with
      | some (line :: later) => some ((c :: line) :: later)
      | _ => none

theorem lines?_line {line : List Char} (inside : '\n' ∉ line) (rest : List Char) :
    lines? (line ++ '\n' :: rest) = (lines? rest).map (line :: ·) := by
  induction line with
  | nil => rw [List.nil_append, lines?, if_pos rfl]
  | cons c line ih =>
      obtain ⟨other, others⟩ := List.ne_and_not_mem_of_not_mem_cons inside
      rw [List.cons_append, lines?, if_neg (Ne.symm other), ih others]
      cases lines? rest <;> rfl

/-- What each line of an output is read as. -/
def readLines {α : Type} (read : List Char → Option α) (output : ByteArray) : Option (List α) := do
  let text ← Utf8.decode? output.data.toList
  (← lines? text).mapM read

theorem lines?_join {line : TokenRecord → String} {records : List TokenRecord}
    (h : ∀ r ∈ records, '\n' ∉ (line r).toList) :
    lines? (String.join (records.map fun r => line r ++ "\n")).toList =
      some (records.map fun r => (line r).toList) := by
  induction records with
  | nil => rfl
  | cons r records ih =>
      have later := ih fun r member => h r (List.mem_cons_of_mem _ member)
      have written : (String.join ((r :: records).map fun r => line r ++ "\n")).toList =
          (line r).toList ++ '\n' :: (String.join (records.map fun r => line r ++ "\n")).toList := by
        simp [String.join_cons]
      rw [written, lines?_line (h r List.mem_cons_self), later]
      rfl

theorem mapM_of_each {α : Type} {read : List Char → Option α} {line : TokenRecord → String}
    {told : TokenRecord → α} {records : List TokenRecord}
    (h : ∀ r ∈ records, read (line r).toList = some (told r)) :
    (records.map fun r => (line r).toList).mapM read = some (records.map told) := by
  induction records with
  | nil => rfl
  | cons r records ih =>
      have later := ih fun r member => h r (List.mem_cons_of_mem _ member)
      rw [List.map_cons, List.mapM_cons, h r List.mem_cons_self, later]
      rfl

theorem readLines_written {α : Type} (read : List Char → Option α) (line : TokenRecord → String)
    (told : TokenRecord → α) {records : List TokenRecord}
    (h : ∀ r ∈ records, '\n' ∉ (line r).toList ∧ read (line r).toList = some (told r)) :
    readLines read (String.join (records.map fun r => line r ++ "\n")).toUTF8 =
      some (records.map told) := by
  have cut := lines?_join fun r member => (h r member).1
  have each := mapM_of_each fun r member => (h r member).2
  rw [readLines, Utf8.decode?_toUTF8]
  simp only [Option.bind_eq_bind, Option.bind_some, cut, each]

/-! ## Records on lines -/

theorem TokenKind.name_graphic (kind : TokenKind) : ∀ c ∈ kind.name.toList, isGraphic c = true := by
  have all : kind.name.toList.all isGraphic = true := by cases kind <;> decide
  exact List.all_eq_true.mp all

namespace TokenRecord

def written (format : OutputFormat) (records : List TokenRecord) : ByteArray :=
  (String.join (records.map (shown format))).toUTF8

theorem written_cons (format : OutputFormat) (r : TokenRecord) (records : List TokenRecord) :
    written format (r :: records) = (r.shown format).toUTF8 ++ written format records := by
  simp [written, String.join_cons]

def readJson (output : ByteArray) : Option (List TokenRecord) := readLines ofJson? output

/-- The text and the kind that a line of plain words tells. -/
def ofPlain? (line : List Char) : Option (String × String) :=
  match line.splitOn ' ' with
  | [head, text, inside, kind] =>
    if head = "Token".toList ∧ inside = "in".toList then
      some (String.ofList text, String.ofList kind)
    else none
  | _ => none

def readPlain (output : ByteArray) : Option (List (String × String)) := readLines ofPlain? output

def ofTokens (tokens : List (Token × Position)) : List TokenRecord :=
  tokens.map fun w => ofToken w.1 w.2

theorem written_ofTokens_cons (format : OutputFormat) (t : Token) (start : Position)
    (later : List (Token × Position)) :
    written format (ofTokens ((t, start) :: later)) =
      ((ofToken t start).shown format).toUTF8 ++ written format (ofTokens later) :=
  written_cons format (ofToken t start) (ofTokens later)

theorem readJson_written (records : List TokenRecord) :
    readJson (written .json records) = some records := by
  have each : ∀ r ∈ records, '\n' ∉ (json r).toList ∧ ofJson? (json r).toList = some (id r) :=
    fun r _ => ⟨r.newline_not_mem_json, r.ofJson?_json⟩
  exact (readLines_written ofJson? json id each).trans (congrArg some records.map_id)

/-- Neither the text nor the kind has anything but graphic characters. -/
def Legible (r : TokenRecord) : Prop :=
  (∀ c ∈ r.text.toList, isGraphic c = true) ∧ ∀ c ∈ r.kind.toList, isGraphic c = true

theorem toList_plain (r : TokenRecord) :
    r.plain.toList =
      [' '].intercalate ["Token".toList, r.text.toList, "in".toList, r.kind.toList] := by
  have joined : r.plain = "Token " ++ r.text ++ " in " ++ r.kind := rfl
  simp [joined, List.intercalate_cons_cons, List.intercalate_singleton]

theorem Legible.plain {r : TokenRecord} (h : r.Legible) :
    '\n' ∉ r.plain.toList ∧ ofPlain? r.plain.toList = some (r.text, r.kind) := by
  have outside {c : Char} (seen : isGraphic c = false) : c ∉ r.text.toList ∧ c ∉ r.kind.toList :=
    ⟨fun found => absurd (h.1 c found) (by simp [seen]),
      fun found => absurd (h.2 c found) (by simp [seen])⟩
  obtain ⟨text, kind⟩ := outside (c := ' ') rfl
  obtain ⟨text', kind'⟩ := outside (c := '\n') rfl
  have words : r.plain.toList.splitOn ' ' =
      ["Token".toList, r.text.toList, "in".toList, r.kind.toList] := by
    rw [toList_plain]
    apply List.splitOn_intercalate
    · simp [text, kind]
    · exact List.cons_ne_nil _ _
  constructor
  · rw [toList_plain]
    simp [List.intercalate_cons_cons, text', kind']
  · simp [ofPlain?, words]

theorem readPlain_written {records : List TokenRecord} (h : ∀ r ∈ records, r.Legible) :
    readPlain (written .plain records) = some (records.map fun r => (r.text, r.kind)) :=
  readLines_written ofPlain? plain (fun r => (r.text, r.kind)) fun r member => (h r member).plain

theorem legible_ofTokens {tokens : List (Token × Position)} (h : ∀ w ∈ tokens, w.1.Legible) :
    ∀ r ∈ ofTokens tokens, r.Legible := by
  intro r member
  obtain ⟨w, found, rfl⟩ := List.mem_map.mp member
  exact ⟨(h w found).2, w.1.kind.name_graphic⟩

end TokenRecord

/-! ## Writing tokens -/

namespace Sink

def writeTokens (s : Sink) (format : OutputFormat) :
    List (Token × Position) → Except RunError Unit × Sink
  | [] => (.ok (), s)
  | (t, start) :: later =>
    match s.writeToken format t start with
    | (.ok (), s) => s.writeTokens format later
    | (.error e, s) => (.error e, s)

theorem writeTokens_of_room {s : Sink} (takes : s.room = none) (format : OutputFormat)
    (tokens : List (Token × Position)) :
    ∃ s', s.writeTokens format tokens = (.ok (), s') ∧
      s'.taken = s.taken ++ TokenRecord.written format (TokenRecord.ofTokens tokens) := by
  induction tokens generalizing s with
  | nil =>
      exact ⟨s, rfl, ByteArray.append_empty.symm⟩
  | cons first later ih =>
      obtain ⟨t, start⟩ := first
      have one := writeToken_of_room takes format t start
      have takes' : (s.writeToken format t start).2.room = none := by
        rw [one]
        exact takes
      obtain ⟨s', called, taken⟩ := ih takes'
      rw [one] at called taken
      refine ⟨s', ?_, ?_⟩
      · rw [writeTokens, one]
        exact called
      · rw [taken, TokenRecord.written_ofTokens_cons, ByteArray.append_assoc]

/-- Two sinks that take everything and are flushed alike. -/
structure Alike (s s' : Sink) : Prop where
  room : s.room = none
  room' : s'.room = none
  flushes : s.flushFailure = s'.flushFailure

end Sink

/-! ## Two runs -/

def Item.written? : Item → Option (Token × Position)
  | .token t start => some (t, start)
  | .error _ => none

namespace Printed

/-- The runs end alike, and print the same tokens each in its format. -/
structure Agree (plain json : Printed) (before before' : ByteArray)
    (tokens : List (Token × Position)) : Prop where
  result : plain.result = json.result
  log : plain.log = json.log
  plainTaken : plain.sink.taken = before ++ TokenRecord.written .plain (TokenRecord.ofTokens tokens)
  jsonTaken : json.sink.taken = before' ++ TokenRecord.written .json (TokenRecord.ofTokens tokens)

variable {plain json : Printed} {before before' : ByteArray}

theorem agree_nothing (result : plain.result = json.result) (log : plain.log = json.log)
    (taken : plain.sink.taken = before) (taken' : json.sink.taken = before') :
    plain.Agree json before before' [] :=
  ⟨result, log, taken.trans ByteArray.append_empty.symm,
    taken'.trans ByteArray.append_empty.symm⟩

theorem Agree.logged {tokens : List (Token × Position)} (h : plain.Agree json before before' tokens)
    (entries : List LogEntry) :
    (plain.logged entries).Agree (json.logged entries) before before' tokens :=
  ⟨h.result, congrArg (entries ++ ·) h.log, h.plainTaken, h.jsonTaken⟩

theorem Agree.token {t : Token} {start : Position} {tokens : List (Token × Position)}
    (h : plain.Agree json (before ++ ((TokenRecord.ofToken t start).shown .plain).toUTF8)
      (before' ++ ((TokenRecord.ofToken t start).shown .json).toUTF8) tokens) :
    plain.Agree json before before' ((t, start) :: tokens) := by
  refine ⟨h.result, h.log, ?_, ?_⟩
  · rw [h.plainTaken, ByteArray.append_assoc, TokenRecord.written_ofTokens_cons]
  · rw [h.jsonTaken, ByteArray.append_assoc, TokenRecord.written_ofTokens_cons]

end Printed

namespace Lexer

theorem close_agrees (l : Lexer) {sink sink' : Sink} (alike : sink.Alike sink')
    (result : Except RunError Unit) (log : List LogEntry) :
    (l.close sink result log).Agree (l.close sink' result log) sink.taken sink'.taken [] := by
  unfold close Sink.flush
  rw [← alike.flushes]
  cases sink.flushFailure with
  | some f => exact Printed.agree_nothing rfl rfl rfl rfl
  | none => exact Printed.agree_nothing rfl rfl rfl rfl

/-- The tokens that are met before anything ends the run, with the places where they start. -/
def printable (recover : Bool) (l : Lexer) : List (Token × Position) :=
  (if recover then l.met else (l.items .stop).1).filterMap Item.written?

theorem printable_of_end (recover : Bool) {l l' : Lexer} (h : l.read = (.ok none, l')) :
    l.printable recover = [] := by
  unfold printable
  rw [met_of_end h, items_of_end .stop h, ite_self, List.filterMap_nil]

theorem printable_of_token (recover : Bool) {l l' : Lexer} {t : Token}
    (h : l.read = (.ok (some t), l')) :
    l.printable recover = (t, l'.position) :: l'.printable recover := by
  unfold printable
  rw [met_of_token h, items_of_token .stop h]
  cases recover with
  | false => rfl
  | true => rfl

theorem printable_of_stop {recover : Bool} {l l' : Lexer} {e : LexError}
    (h : l.read = (.error e, l')) (stops : (recover && !e.isInput) = false) :
    l.printable recover = [] := by
  unfold printable
  cases recover with
  | false =>
      have stopped : (l.items .stop).1 = [.error e] := by
        rw [items]
        split <;> rename_i found <;> rw [h] at found <;> cases found
        rfl
      rw [if_neg (by decide), stopped]
      rfl
  | true =>
      obtain ⟨f, rfl⟩ : ∃ f, e = .input f := LexError.isInput_iff.mp (by simpa using stops)
      rw [if_pos rfl, met_of_input h, List.filterMap_nil]

theorem printable_of_error {l l' l'' : Lexer} {e : LexError} (h : l.read = (.error e, l'))
    (lexical : e.isInput = false) (flushed : l'.flush = (.ok (), l'')) :
    l.printable true = l''.printable true := by
  unfold printable
  rw [if_pos rfl, met_of_error h lexical flushed]
  rfl

theorem printable_of_failed_flush {l l' l'' : Lexer} {e e' : LexError}
    (h : l.read = (.error e, l')) (lexical : e.isInput = false)
    (flushed : l'.flush = (.error e', l'')) : l.printable true = [] := by
  unfold printable
  rw [if_pos rfl, met_of_failed_flush h lexical flushed]
  rfl

theorem printable_legible (recover : Bool) (l : Lexer) (clear : l.Clear) :
    ∀ w ∈ l.printable recover, w.1.Legible := by
  induction l using reads_induction with
  | ended l l' called =>
      rw [printable_of_end recover called]
      exact List.forall_mem_nil _
  | token l l' t called ih =>
      have legible : t.Legible := call_legible clear .read t (congrArg Prod.fst called)
      rw [printable_of_token recover called]
      exact List.forall_mem_cons.mpr ⟨legible, ih (read_clear clear called)⟩
  | error l l' e called ih =>
      cases recovers : recover && !e.isInput with
      | false =>
          rw [printable_of_stop called recovers]
          exact List.forall_mem_nil _
      | true =>
          obtain ⟨rfl, lexical⟩ : recover = true ∧ e.isInput = false := by simpa using recovers
          have later := ih (call_clear (read_clear clear called) .flush)
          rcases flushed : l'.flush with ⟨e' | _, l''⟩
          · rw [printable_of_failed_flush called lexical flushed]
            exact List.forall_mem_nil _
          · rw [printable_of_error called lexical flushed]
            rwa [flushed] at later

theorem printFrom_agrees (recover : Bool) (l : Lexer) {sink sink' : Sink}
    (alike : sink.Alike sink') (tokens errors : Nat) :
    (l.printFrom .plain recover sink tokens errors).Agree
      (l.printFrom .json recover sink' tokens errors) sink.taken sink'.taken
      (l.printable recover) := by
  induction l using reads_induction generalizing sink sink' tokens errors with
  | ended l l' called =>
      rw [printFrom_of_end .plain recover sink tokens errors called,
        printFrom_of_end .json recover sink' tokens errors called, printable_of_end recover called]
      exact l'.close_agrees alike _ _
  | token l l' t called ih =>
      have written := Sink.writeToken_of_room alike.room .plain t l'.position
      have written' := Sink.writeToken_of_room alike.room' .json t l'.position
      -- both sinks have taken their line, so the two runs go on with the same read
      have alike' : (sink.writeToken .plain t l'.position).2.Alike
          (sink'.writeToken .json t l'.position).2 := by
        rw [written, written']
        exact ⟨alike.room, alike.room', alike.flushes⟩
      have agree := ih alike' (tokens + 1) errors
      rw [written, written'] at agree
      rw [printFrom_of_token .plain recover tokens errors called written,
        printFrom_of_token .json recover tokens errors called written',
        printable_of_token recover called]
      exact agree.token
  | error l l' e called ih =>
      cases recovers : recover && !e.isInput with
      | false =>
          rw [printFrom_of_stop .plain sink tokens errors called recovers,
            printFrom_of_stop .json sink' tokens errors called recovers,
            printable_of_stop called recovers]
          exact (l'.close_agrees alike _ _).logged _
      | true =>
          obtain ⟨rfl, lexical⟩ : recover = true ∧ e.isInput = false := by simpa using recovers
          rcases flushed : l'.flush with ⟨e' | _, l''⟩
          · rw [printFrom_of_failed_flush .plain sink tokens errors called lexical flushed,
              printFrom_of_failed_flush .json sink' tokens errors called lexical flushed,
              printable_of_failed_flush called lexical flushed]
            exact Printed.agree_nothing rfl rfl rfl rfl
          · have agree := ih alike tokens (errors + 1)
            rw [flushed] at agree
            rw [printFrom_of_error .plain sink tokens errors called lexical flushed,
              printFrom_of_error .json sink' tokens errors called lexical flushed,
              printable_of_error called lexical flushed]
            exact agree.logged _

/-- The run that prints a source into a sink that takes everything. -/
def printing (source : Source) (recover : Bool) (flushFailure : Option Failure)
    (format : OutputFormat) : Printed :=
  (ofSource source).print format recover (.empty none flushFailure)

theorem printing_agrees (source : Source) (recover : Bool) (flushFailure : Option Failure) :
    (printing source recover flushFailure .plain).Agree
      (printing source recover flushFailure .json) .empty .empty
      ((ofSource source).printable recover) :=
  printFrom_agrees recover (ofSource source) ⟨rfl, rfl, rfl⟩ 0 0

end Lexer

/-- Tokens of any kind that are written in JSON are read back, one from each line.  A source that is
printed in either format gives the same result and the same log, and the lines in plain words have
the texts and kinds that are read from the lines in JSON, which are those of the tokens met.  They
can be told apart, since all tokens that a lexer returns have legible texts. -/
theorem formats_say_the_same :
    (∀ tokens : List (Token × Position), ∃ sink,
      Sink.unlimited.writeTokens .json tokens = (.ok (), sink) ∧
        TokenRecord.readJson sink.taken =
          some (tokens.map fun w => ⟨w.1.kind.name, w.1.text, w.2.line, w.2.column⟩)) ∧
    (∀ source recover flushFailure, ∃ records : List TokenRecord,
      let run := Lexer.printing source recover flushFailure
      (run .plain).result = (run .json).result ∧ (run .plain).log = (run .json).log ∧
        records = TokenRecord.ofTokens ((Lexer.ofSource source).printable recover) ∧
        TokenRecord.readJson (run .json).sink.taken = some records ∧
        (run .plain).sink.taken =
          (String.join (records.map fun r =>
            "Token " ++ r.text ++ " in " ++ r.kind ++ "\n")).toUTF8 ∧
        TokenRecord.readPlain (run .plain).sink.taken =
          some (records.map fun r => (r.text, r.kind))) ∧
    ∀ source calls c, Lexer.Legible (((Lexer.ofSource source).afterCalls calls).call c).1 := by
  refine ⟨?_, ?_, ?_⟩
  · intro tokens
    obtain ⟨sink, called, taken⟩ := Sink.writeTokens_of_room (s := .unlimited) rfl .json tokens
    refine ⟨sink, called, ?_⟩
    rw [taken]
    exact TokenRecord.readJson_written (TokenRecord.ofTokens tokens)
  · intro source recover flushFailure
    have agree := Lexer.printing_agrees source recover flushFailure
    have legible := (Lexer.ofSource source).printable_legible recover (Lexer.clear_ofSource source)
    have plain := agree.plainTaken.trans ByteArray.empty_append
    have json := agree.jsonTaken.trans ByteArray.empty_append
    refine ⟨_, agree.result, agree.log, rfl, ?_, plain, ?_⟩
    · rw [json, TokenRecord.readJson_written]
    · rw [plain, TokenRecord.readPlain_written (TokenRecord.legible_ofTokens legible)]
  · intro source calls c
    exact Lexer.call_legible (Lexer.afterCalls_clear (Lexer.clear_ofSource source) calls) c

end JamTokens
