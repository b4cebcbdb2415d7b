import JamTokens.Output.Print
import JamTokens.Proofs.Flushing
import JamTokens.Proofs.Portions

/-!
# What recovery prints

Printing a text with recovery writes a line for every portion of its readings
that makes a token, and reports the error of every other portion.  For this the
cursor has to stand, behind each error, on the line that the error reaches; the
flush then drops what the error is to drop.

So not every lexeme on a line without a reported error is printed: a character
that lacks its equals sign takes the line of its follower with it.
-/

set_option autoImplicit false

namespace JamTokens

open Grammar

/-! ## Readings of a text -/

theorem Pending.inText_ofText (text : List Char) (symbols : Symbols) :
    InText ⟨(Scanner.ofSource (.ofText text)).readings, symbols⟩ := by
  obtain ⟨lexemes, cut⟩ := cut_exists [] text
  rw [Scanner.readings_of_cut cut _ rfl rfl (Source.ofText_delivers text)]
  constructor
  · intro reading member
    obtain ⟨found, inside, rfl⟩ := List.mem_map.mp member
    exact ⟨found.1, rfl, cut.proper found inside⟩
  · exact List.pairwise_map.mpr cut.sorted

namespace Lexer

/-! ## Where the cursor stands behind an error -/

/-- The cursor stands on the line that the error reaches, unless nothing is left to be read. -/
def StandsBehind (l : Lexer) (e : LexError) : Prop :=
  e.isInput = false ∧ (l.scanner.readings ≠ [] → l.line = l.pending.reach e)

def StaysOnText {α : Type} (outcome : Except LexError α × Lexer) : Prop :=
  outcome.2.scanner.OnText ∧ ∀ e, outcome.1 = .error e → outcome.2.StandsBehind e

theorem staysOnText_ok {α : Type} {l : Lexer} (h : l.scanner.OnText) (value : α) :
    StaysOnText (.ok value, l) :=
  ⟨h, fun _ failed => nomatch failed⟩

theorem staysOnText_error {α : Type} {l : Lexer} {e : LexError} (h : l.scanner.OnText)
    (standing : l.StandsBehind e) : StaysOnText (α := α) (.error e, l) := by
  refine ⟨h, ?_⟩
  intro e' failed
  cases failed
  exact standing

theorem pair_onText {l : Lexer} (c : Char) (pairing : Pairing) (start : Position)
    (h : l.scanner.OnText) : StaysOnText (l.pair c pairing start) := by
  obtain ⟨follower, s, called, onText, standing⟩ := Scanner.onText_next h
  unfold pair
  rw [called]
  dsimp only
  by_cases equals : follower = .char '='
  · rw [if_pos equals]
    exact staysOnText_ok onText _
  · rw [if_neg equals]
    have back := Scanner.onText_handBack h called
    have again := Scanner.next_handBack (Scanner.returned_of_next called) follower
    cases single : pairing.single with
    | some token => exact staysOnText_ok back _
    | none =>
        apply staysOnText_error back
        by_cases atEnd : follower = .endOfInput
        · subst atEnd
          exact ⟨rfl, fun more => absurd (Scanner.readings_of_end again) more⟩
        · rw [unpaired_lexeme c follower start atEnd]
          refine ⟨rfl, fun _ => ?_⟩
          -- the follower is what is read next, and the cursor stands right behind it
          rw [pending, Pending.reach, Scanner.readings_of_ok again atEnd]
          exact (standing atEnd).symm

theorem ofChar_onText {l : Lexer} (c : Char) (start : Position) (h : l.scanner.OnText)
    (line : l.line = start.line) : StaysOnText (l.ofChar c start) := by
  unfold ofChar
  cases own : Token.ofChar? c with
  | some token => exact staysOnText_ok h _
  | none =>
      cases pairs : Pairing.ofChar? c with
      | some pairing => exact pair_onText c pairing start h
      | none => exact staysOnText_error h ⟨rfl, fun _ => line⟩

theorem ofLexeme_onText {l : Lexer} (lexeme : Lexeme) (start : Position) (h : l.scanner.OnText)
    (line : lexeme ≠ .endOfInput → l.line = start.line) :
    StaysOnText (l.ofLexeme lexeme start) := by
  cases lexeme with
  | endOfInput =>
      rw [ofLexeme_endOfInput]
      exact staysOnText_ok h _
  | word text => exact staysOnText_ok h _
  | number text =>
      unfold ofLexeme
      dsimp only
      cases Literal.value? text.toList with
      | some value => exact staysOnText_ok h _
      | none => exact staysOnText_error h ⟨rfl, fun _ => line (by simp)⟩
  | char c =>
      have stays := ofChar_onText c start h (line (by simp))
      unfold ofLexeme
      dsimp only
      rcases made : l.ofChar c start with ⟨e | token, l'⟩
      · rw [made] at stays
        exact staysOnText_error stays.1 (stays.2 e rfl)
      · rw [made] at stays
        exact staysOnText_ok stays.1 _

theorem assemble_onText {l : Lexer} (h : l.scanner.OnText) : StaysOnText l.assemble := by
  obtain ⟨lexeme, s, called, onText, standing⟩ := Scanner.onText_next h
  have line : lexeme ≠ .endOfInput → line { l with scanner := s } = s.start.line :=
    fun more => (standing more).symm
  have stays := ofLexeme_onText lexeme s.start onText line
  unfold assemble
  rw [called]
  dsimp only
  rcases made : ofLexeme { l with scanner := s } lexeme s.start with ⟨e | token, l'⟩
  · rw [made] at stays
    exact staysOnText_error stays.1 (stays.2 e rfl)
  · rw [made] at stays
    exact staysOnText_ok stays.1 _

theorem read_onText {l : Lexer} (h : l.scanner.OnText) (fresh : l.peeked = none) :
    StaysOnText l.read := by
  have stays := assemble_onText h
  unfold read
  rw [fresh]
  dsimp only
  rcases made : l.assemble with ⟨e | (_ | ⟨token, start⟩), l'⟩
  · rw [made] at stays
    exact staysOnText_error stays.1 (stays.2 e rfl)
  · rw [made] at stays
    exact staysOnText_ok stays.1 _
  · rw [made] at stays
    exact staysOnText_ok (l := { l' with position := start }) stays.1 _

theorem flush_onText {l : Lexer} {e : LexError} (h : l.scanner.OnText)
    (standing : l.StandsBehind e) :
    ∃ l', l.flush = (.ok (), l') ∧ l'.scanner.OnText ∧ l'.peeked = none ∧
      l'.pending = l.pending.resume e := by
  obtain ⟨s, flushed, onText, dropped⟩ := Scanner.onText_flush h
  refine ⟨{ l with scanner := s, peeked := none }, by simp [flush, flushed], onText, rfl, ?_⟩
  have same : s.readings = (l.pending.resume e).readings := by
    rw [dropped]
    cases left : l.scanner.readings with
    | nil => simp [Pending.resume, pending, left]
    | cons reading rest =>
        have line := standing.2 (by simp [left])
        rw [← left, Pending.resume, ← line]
        rfl
  exact congrArg (Pending.mk · l.symbols) same

end Lexer

/-! ## What is printed -/

def TokenRecord.shown (format : OutputFormat) (r : TokenRecord) : String :=
  match format with
  | .plain => r.plain ++ "\n"
  | .json => r.json ++ "\n"

def Portion.line? (format : OutputFormat) : Portion → Option String
  | written token start _ => some ((TokenRecord.ofToken token start).shown format)
  | dropped .. => none

def Printed.reported (p : Printed) : List LexError :=
  p.log.filterMap fun
    | .reported e => some e
    | _ => none

structure Sink.Open (s : Sink) : Prop where
  room : s.room = none
  flushes : s.flushFailure = none

theorem Sink.writeToken_of_room {s : Sink} (takes : s.room = none) (format : OutputFormat)
    (token : Token) (start : Position) :
    s.writeToken format token start =
      (.ok (), { s with
        taken := s.taken ++ ((TokenRecord.ofToken token start).shown format).toUTF8
        flushed := false }) := by
  cases format with
  | plain => simp [writeToken, write, takes, TokenRecord.shown]
  | json => simp [writeToken, write, takes, TokenRecord.shown, ByteArray.append_assoc]

theorem Sink.writeToken_open {s : Sink} (h : s.Open) (format : OutputFormat) (token : Token)
    (start : Position) :
    s.writeToken format token start =
      (.ok (), { s with
        taken := s.taken ++ ((TokenRecord.ofToken token start).shown format).toUTF8
        flushed := false }) :=
  writeToken_of_room h.room format token start

namespace Lexer

section

variable [Counting]

theorem printFrom_of_end {l l' : Lexer} (format : OutputFormat) (recover : Bool) (sink : Sink)
    (tokens errors : Nat) (h : l.read = (.ok none, l')) :
    l.printFrom format recover sink tokens errors =
      l'.close sink (if errors = 0 then .ok () else .error (.recovered errors))
        [.reachedEnd tokens errors] := by
  rw [printFrom]
  split <;> rename_i found <;> rw [h] at found <;> cases found
  rfl

theorem printFrom_of_token {l l' : Lexer} (format : OutputFormat) (recover : Bool)
    {sink sink' : Sink} (tokens errors : Nat) {token : Token} (h : l.read = (.ok (some token), l'))
    (written : sink.writeToken format token l'.position = (.ok (), sink')) :
    l.printFrom format recover sink tokens errors =
      l'.printFrom format recover sink' (tokens + 1) errors := by
  rw [printFrom]
  split <;> rename_i found <;> rw [h] at found <;> cases found
  rw [written]

theorem printFrom_of_error {l l' l'' : Lexer} (format : OutputFormat) (sink : Sink)
    (tokens errors : Nat) {e : LexError} (h : l.read = (.error e, l')) (lexical : e.isInput = false)
    (flushed : l'.flush = (.ok (), l'')) :
    l.printFrom format true sink tokens errors =
      (l''.printFrom format true sink tokens (errors + 1)).logged
        [.reported e, .flushedLine l''.line] := by
  rw [printFrom]
  split <;> rename_i found <;> rw [h] at found <;> cases found
  rw [lexical]
  simp only [Bool.not_false, Bool.and_self, if_true]
  split <;> rename_i found' <;> rw [flushed] at found' <;> cases found'
  rfl

end

/-- A run prints the tokens of all portions and reports the errors of all portions. -/
theorem printFrom_portions (format : OutputFormat) (l : Lexer) (sink : Sink) (tokens errors : Nat)
    (h : l.scanner.OnText) (fresh : l.peeked = none) (takes : sink.Open) :
    (l.printFrom format true sink tokens errors).sink.taken =
        sink.taken ++ (String.join (l.pending.portions.filterMap (Portion.line? format))).toUTF8 ∧
      (l.printFrom format true sink tokens errors).reported =
        l.pending.portions.filterMap Portion.error? := by
  generalize size : l.pending.readings.length = n
  induction n using Nat.strongRecOn generalizing l sink tokens errors with
  | ind n ih =>
      obtain ⟨outcome, left, position, fresh', _⟩ := l.read_fresh h.settled fresh
      obtain ⟨onText, standing⟩ := read_onText h fresh
      rcases called : l.read with ⟨result, l'⟩
      rw [called] at outcome left position fresh' onText standing
      dsimp only at outcome left position fresh' onText standing
      have less := l.pending.assemble_length
      rcases made : l.pending.assemble with ⟨next, rest⟩
      rw [made] at outcome left position less
      dsimp only at outcome left position less
      subst left
      rcases next with e | (_ | ⟨token, start⟩)
      · subst outcome
        have standing' := standing e rfl
        obtain ⟨l'', flushed, onText', fresh'', resumed⟩ := flush_onText onText standing'
        have fewer : l''.pending.readings.length < n := by
          rw [resumed, ← size]
          exact Nat.lt_of_le_of_lt (l'.pending.resume_suffix e).length_le (less (by simp))
        obtain ⟨taken, reported⟩ := ih _ fewer l'' sink tokens (errors + 1) onText' fresh'' takes rfl
        rw [printFrom_of_error format sink tokens errors called standing'.1 flushed,
          Pending.portions_of_error made, ← resumed]
        exact ⟨taken, congrArg (e :: ·) reported⟩
      · subst outcome
        rw [printFrom_of_end format true sink tokens errors called, Pending.portions_of_end made]
        simp [close, Sink.flush, takes.flushes, Printed.reported]
      · subst outcome
        have fewer : l'.pending.readings.length < n := by
          rw [← size]
          exact less (by simp)
        have written := Sink.writeToken_open takes format token l'.position
        have takes' : Sink.Open { sink with
            taken := sink.taken ++ ((TokenRecord.ofToken token l'.position).shown format).toUTF8
            flushed := false } := ⟨takes.room, takes.flushes⟩
        obtain ⟨taken, reported⟩ := ih _ fewer l' _ (tokens + 1) errors onText fresh' takes' rfl
        rw [printFrom_of_token format true tokens errors called written,
          Pending.portions_of_token made]
        refine ⟨?_, reported⟩
        rw [taken, position]
        simp [positionAfter, Portion.line?, ByteArray.append_assoc]

end Lexer

/-! ## Lines without errors -/

namespace Recovery

def readings (text : List Char) : List Reading := (Scanner.ofSource (.ofText text)).readings

def portions (text : List Char) : List Portion := (Pending.mk (readings text) .initial).portions

/-- The run that prints a text into a sink that takes everything. -/
def run (text : List Char) (format : OutputFormat) : Printed :=
  (Lexer.ofSource (.ofText text)).print format true .unlimited

/-- Every lexeme on a line without a reported error is part of a printed token, in order. -/
def CleanLinesPrinted (text : List Char) (format : OutputFormat) : Prop :=
  ((readings text).filter (onCleanLine (run text format).reported)).Sublist
    ((portions text).flatMap Portion.kept)

theorem run_portions (text : List Char) (format : OutputFormat) :
    (run text format).sink.taken =
        (String.join ((portions text).filterMap (Portion.line? format))).toUTF8 ∧
      (run text format).reported = (portions text).filterMap Portion.error? := by
  have printed := Lexer.printFrom_portions format (Lexer.ofSource (.ofText text)) .unlimited 0 0
    (Scanner.onText_ofText text) rfl ⟨rfl, rfl⟩
  obtain ⟨taken, reported⟩ := printed
  refine ⟨?_, reported⟩
  rw [run, Lexer.print, taken]
  exact ByteArray.empty_append

theorem cleanLinesPrinted_iff (text : List Char) (format : OutputFormat) :
    CleanLinesPrinted text format ↔ ∀ portion ∈ portions text, portion.crossesLine = false := by
  rw [CleanLinesPrinted, (run_portions text format).2]
  exact Pending.clean_sublist_written_iff (Pending.inText_ofText text .initial)

/-- A run prints and reports its portions, which are all of the text.  It prints everything on
lines without an error exactly if no character in error has its follower on a later line. -/
theorem clean_lines_printed_exactly (text : List Char) (format : OutputFormat) :
    (run text format).sink.taken =
        (String.join ((portions text).filterMap (Portion.line? format))).toUTF8 ∧
      (run text format).reported = (portions text).filterMap Portion.error? ∧
      (portions text).flatMap Portion.readings = readings text ∧
      (CleanLinesPrinted text format ↔
        ∀ portion ∈ portions text, portion.crossesLine = false) := by
  obtain ⟨taken, reported⟩ := run_portions text format
  have whole := Pending.portions_readings _ (Pending.inText_ofText text .initial)
  exact ⟨taken, reported, whole, cleanLinesPrinted_iff text format⟩

/-- The bang in the first line takes the second line with it. -/
theorem clean_line_lost :
    ¬ CleanLinesPrinted ['!', '\n', 'x', '\n', 'y'] .plain ∧
      (run ['!', '\n', 'x', '\n', 'y'] .plain).reported =
        [.illegalOperatorSequence "!x" ⟨1, 1⟩] ∧
      (run ['!', '\n', 'x', '\n', 'y'] .plain).sink.taken = "Token y in Identifier\n".toUTF8 := by
  obtain ⟨taken, reported⟩ := run_portions ['!', '\n', 'x', '\n', 'y'] .plain
  refine ⟨?_, ?_, ?_⟩
  · rw [cleanLinesPrinted_iff]
    intro stay
    have crosses : (portions ['!', '\n', 'x', '\n', 'y']).any Portion.crossesLine = true := by
      decide +kernel
    obtain ⟨portion, member, crosses⟩ := List.any_eq_true.mp crosses
    rw [stay portion member] at crosses
    cases crosses
  · rw [reported]
    decide +kernel
  · rw [taken]
    decide +kernel

end Recovery

end JamTokens
