import JamTokens.Proofs.Places

/-!
# Where lexemes start

A scanner reports one start, which is meant to be that of the lexeme returned
last.  A failure in a gap leaves it alone.  But a scan notes its start before it
takes anything, so a failure that cuts a word or a number short leaves the start
of what has been lost.  That start is reported until another lexeme has been
scanned, and the lexeme returned last comes again with it when it is handed back.

To tell the two starts apart, a client is followed that writes down where each
lexeme starts that it is returned, and where those start that are cut short.
-/

set_option autoImplicit false

namespace JamTokens

namespace Scanner

/-- What has been scanned lies before the cursor, or it is the end of input. -/
theorem passed_of_next {s s' : Scanner} {lexeme : Lexeme} (free : s.returned = none)
    (called : s.next = (.ok lexeme, s'))
    (characters : s'.cursor.position = s.ahead.after lexeme.characters) :
    s.ahead.Precedes s'.cursor.position ∨ s'.cursor.feed.Ended := by
  by_cases atEnd : lexeme = .endOfInput
  · subst atEnd
    right
    exact next_end_ended (settled_of_returned_none free) called
  · left
    exact precedes_of_next free called characters atEnd

/-! ## A client that is followed -/

inductive Call
  | next | handBack | flush
  deriving DecidableEq, Repr

/-- A scanner, with what its client has written down. -/
structure Followed where
  scanner : Scanner
  /-- The lexeme that has been returned last, and where it starts. -/
  latest : Option (Lexeme × Position)
  /-- Where the word or number starts that a failure has cut short last, unless a lexeme has been
  scanned since. -/
  cut : Option Position

namespace Followed

def ofSource (source : Source) : Followed := ⟨Scanner.ofSource source, none, none⟩

def next (w : Followed) : Followed :=
  match w.scanner.returned, w.scanner.next with
  | some _, (_, s) => { w with scanner := s }
  | none, (.ok lexeme, s) => ⟨s, some (lexeme, w.scanner.ahead), none⟩
  | none, (.error _, s) =>
    if (w.scanner.cursor.feed.takeGap false).failure = none then
      { w with scanner := s, cut := some w.scanner.ahead }
    else { w with scanner := s }

/-- Hands the latest lexeme back, if there is one and it is not pending already. -/
def handBack (w : Followed) : Followed :=
  match w.scanner.returned, w.latest with
  | none, some (lexeme, _) => { w with scanner := w.scanner.handBack lexeme }
  | _, _ => w

def call (w : Followed) : Call → Followed
  | .next => w.next
  | .handBack => w.handBack
  | .flush => { w with scanner := w.scanner.flush.2 }

def after (w : Followed) : List Call → Followed
  | [] => w
  | k :: calls => (w.call k).after calls

/-- Where the latest lexeme starts; before there is one, the initial position. -/
def latestStart (w : Followed) : Position :=
  match w.latest with
  | none => .start
  | some (_, own) => own

/-- The start that the scanner reports belongs to the latest lexeme. -/
def Faithful (w : Followed) : Prop := w.scanner.start = w.latestStart

/-! ## What holds behind every call -/

/-- A lexeme that is pending is the latest, and will come with the start that is reported now. -/
def PendsLatest (w : Followed) : Prop :=
  ∀ lexeme start, w.scanner.returned = some (lexeme, start) →
    start = w.scanner.start ∧ ∃ own, w.latest = some (lexeme, own)

theorem pendsLatest_of_returned_none {w : Followed} (h : w.scanner.returned = none) :
    w.PendsLatest := by
  intro lexeme start found
  rw [h] at found
  cases found

structure Tracked (w : Followed) : Prop where
  /-- The start that is reported is the latest that has been noted. -/
  start : w.scanner.start = w.cut.getD w.latestStart
  pending : w.PendsLatest
  passed : ∀ lexeme own, w.latest = some (lexeme, own) →
    own.Precedes w.scanner.cursor.position ∨ w.scanner.cursor.feed.Ended
  behind : ∀ lexeme own lost, w.latest = some (lexeme, own) → w.cut = some lost → own.Precedes lost

theorem tracked_ofSource (source : Source) : (ofSource source).Tracked where
  start := rfl
  pending := pendsLatest_of_returned_none rfl
  passed := by
    intro lexeme own found
    cases found
  behind := by
    intro lexeme own lost found
    cases found

variable {w : Followed} {f : Failure} {s' : Scanner} {lexeme : Lexeme} {own : Position}

/-- If the input is not at its end, the cursor is behind the latest lexeme. -/
theorem Tracked.precedes_of_failed (h : w.Tracked) (free : w.scanner.returned = none)
    (failed : w.scanner.next = (.error f, s')) (latest : w.latest = some (lexeme, own)) :
    own.Precedes w.scanner.cursor.position := by
  rcases h.passed lexeme own latest with passed | ended
  · exact passed
  · obtain ⟨s'', called⟩ := next_ended free ended
    rw [called] at failed
    cases failed

theorem Tracked.passed_of_failed (h : w.Tracked) (free : w.scanner.returned = none)
    (failed : w.scanner.next = (.error f, s')) (latest : w.latest = some (lexeme, own)) :
    own.Precedes s'.cursor.position ∨ s'.cursor.feed.Ended := by
  obtain ⟨front, -, position⟩ := w.scanner.next_moves
  rw [failed] at position
  left
  rw [position]
  exact (h.precedes_of_failed free failed latest).after _

/-- A failure in a gap leaves all that is written down. -/
theorem next_of_failed_in_gap (free : w.scanner.returned = none)
    (failed : (w.scanner.cursor.feed.takeGap false).failure = some f)
    (called : w.scanner.next = (.error f, s')) : w.next = { w with scanner := s' } := by
  have cut : ¬ (w.scanner.cursor.feed.takeGap false).failure = none := by
    rw [failed]
    exact Option.some_ne_none f
  simp only [next, free, called]
  exact if_neg cut

theorem next_of_cut (free : w.scanner.returned = none)
    (passed : (w.scanner.cursor.feed.takeGap false).failure = none)
    (called : w.scanner.next = (.error f, s')) :
    w.next = { w with scanner := s', cut := some w.scanner.ahead } := by
  simp only [next, free, called]
  exact if_pos passed

theorem next_of_scanned (free : w.scanner.returned = none)
    (called : w.scanner.next = (.ok lexeme, s')) :
    w.next = ⟨s', some (lexeme, w.scanner.ahead), none⟩ := by
  simp only [next, free, called]

theorem next_of_pending (pends : w.PendsLatest) {start : Position}
    (found : w.scanner.returned = some (lexeme, start)) :
    w.next = { w with scanner := { w.scanner with returned := none } } := by
  obtain ⟨same, -⟩ := pends lexeme start found
  simp only [next, Scanner.next, found, same]

theorem tracked_next (h : w.Tracked) : w.next.Tracked := by
  cases w.scanner.comes with
  | again found called =>
      rw [next_of_pending h.pending found]
      exact ⟨h.start, pendsLatest_of_returned_none rfl, h.passed, h.behind⟩
  | inGap free failed called start =>
      have returned := returned_of_next called
      rw [next_of_failed_in_gap free failed called]
      refine ⟨start.trans h.start, pendsLatest_of_returned_none returned, ?_, h.behind⟩
      intro lexeme own latest
      exact h.passed_of_failed free called latest
  | inLexeme free passed called start =>
      have returned := returned_of_next called
      rw [next_of_cut free passed called]
      refine ⟨start, pendsLatest_of_returned_none returned, ?_, ?_⟩
      · intro lexeme own latest
        exact h.passed_of_failed free called latest
      · intro lexeme own lost latest cut
        cases cut
        exact (h.precedes_of_failed free called latest).after _
  | scanned free called start characters =>
      have returned := returned_of_next called
      rw [next_of_scanned free called]
      refine ⟨start, pendsLatest_of_returned_none returned, ?_, ?_⟩
      · intro lexeme own latest
        cases latest
        exact passed_of_next free called characters
      · intro lexeme own lost latest cut
        cases cut

theorem handBack_eq (free : w.scanner.returned = none)
    (latest : w.latest = some (lexeme, own)) :
    w.handBack = { w with scanner := w.scanner.handBack lexeme } := by
  simp only [handBack, free, latest]

theorem tracked_handBack (h : w.Tracked) : w.handBack.Tracked := by
  cases found : w.scanner.returned with
  | some back =>
      have made : w.handBack = w := by
        simp only [handBack, found]
      rw [made]
      exact h
  | none =>
      cases latest : w.latest with
      | none =>
          have made : w.handBack = w := by
            simp only [handBack, found, latest]
          rw [made]
          exact h
      | some remembered =>
          obtain ⟨lexeme, own⟩ := remembered
          rw [handBack_eq found latest]
          refine ⟨h.start, ?_, h.passed, h.behind⟩
          intro lexeme' start pending
          cases pending
          exact ⟨rfl, own, latest⟩

theorem tracked_flush (h : w.Tracked) : (w.call .flush).Tracked := by
  have made : w.call .flush =
      { w with scanner := ⟨w.scanner.cursor.pass w.scanner.cursor.feed.takeLine, none,
        w.scanner.start⟩ } := by
    rw [call, flush_eq]
  rw [made]
  refine ⟨h.start, pendsLatest_of_returned_none rfl, ?_, h.behind⟩
  intro lexeme own latest
  rcases h.passed lexeme own latest with passed | ended
  · left
    exact passed.after _
  · right
    rw [Cursor.pass, Feed.takeLine_ended ended]
    exact ended

theorem tracked_call (h : w.Tracked) (k : Call) : (w.call k).Tracked := by
  cases k with
  | next => exact tracked_next h
  | handBack => exact tracked_handBack h
  | flush => exact tracked_flush h

theorem tracked_after (h : w.Tracked) (calls : List Call) : (w.after calls).Tracked := by
  induction calls generalizing w with
  | nil => exact h
  | cons k calls ih => exact ih (tracked_call h k)

/-! ## The start that is reported -/

structure Accounted (w : Followed) : Prop where
  /-- It is that of what has been cut short since the latest lexeme was scanned, or else that of the
  latest lexeme. -/
  start : w.scanner.start = w.cut.getD w.latestStart
  faithful_iff : w.Faithful ↔ w.cut = none ∨ w.latest = none ∧ w.cut = some .start
  /-- What is written down as the latest lexeme is what has been returned. -/
  returned : ∀ lexeme, w.scanner.next.1 = .ok lexeme → ∃ own, w.next.latest = some (lexeme, own)
  /-- A failure in a gap leaves it alone, a failure in a word or a number does not. -/
  failed : ∀ f, w.scanner.next.1 = .error f →
    w.next.scanner.start =
      if (w.scanner.cursor.feed.takeGap false).failure = none then w.scanner.ahead
      else w.scanner.start
  /-- What is handed back comes again and leaves the scanner as it was, so with the start that was
  reported.  That is its own if nothing has been cut short since it was scanned. -/
  restored : ∀ lexeme own, w.latest = some (lexeme, own) → w.scanner.returned = none →
    w.handBack.scanner.next = (.ok lexeme, w.scanner) ∧ (w.scanner.start = own ↔ w.cut = none)
  /-- A lexeme that is scanned is written down with the place from which its characters lead to the
  cursor behind it. -/
  scanned : ∀ lexeme, w.scanner.returned = none → w.scanner.next.1 = .ok lexeme →
    w.next.latest = some (lexeme, w.scanner.ahead) ∧ w.next.scanner.start = w.scanner.ahead ∧
      w.next.scanner.cursor.position = w.scanner.ahead.after lexeme.characters

/-- Once the latest lexeme is there, nothing but a cut takes its start away. -/
theorem Tracked.start_iff (h : w.Tracked)
    (latest : w.latest = some (lexeme, own)) : w.scanner.start = own ↔ w.cut = none := by
  have start := h.start
  simp only [latestStart, latest] at start
  cases cut : w.cut with
  | none =>
      rw [cut] at start
      exact iff_of_true start rfl
  | some lost =>
      have order := h.behind lexeme own lost latest cut
      rw [cut] at start
      refine iff_of_false ?_ (Option.some_ne_none lost)
      intro same
      exact order.ne (same.symm.trans start)

theorem Tracked.faithful_iff (h : w.Tracked) :
    w.Faithful ↔ w.cut = none ∨ w.latest = none ∧ w.cut = some .start := by
  cases latest : w.latest with
  | none =>
      have start := h.start
      simp only [Faithful, latestStart, latest] at start ⊢
      rw [start]
      cases cut : w.cut with
      | none => simp
      | some lost => simp
  | some remembered =>
      obtain ⟨lexeme, own⟩ := remembered
      have iff := h.start_iff latest
      simp only [Faithful, latestStart, latest] at iff ⊢
      rw [iff]
      simp

theorem Tracked.accounted (h : w.Tracked) : w.Accounted where
  start := h.start
  faithful_iff := h.faithful_iff
  returned := by
    intro lexeme ok
    cases w.scanner.comes with
    | again found called =>
        rw [called] at ok
        cases ok
        rw [next_of_pending h.pending found]
        exact (h.pending _ _ found).2
    | inGap free cut called start =>
        rw [called] at ok
        cases ok
    | inLexeme free passed called start =>
        rw [called] at ok
        cases ok
    | scanned free called start characters =>
        rw [called] at ok
        cases ok
        rw [next_of_scanned free called]
        exact ⟨_, rfl⟩
  failed := by
    intro f failed
    cases w.scanner.comes with
    | again found called =>
        rw [called] at failed
        cases failed
    | inGap free cut called start =>
        rw [next_of_failed_in_gap free cut called, cut, if_neg (Option.some_ne_none _)]
        exact start
    | inLexeme free passed called start =>
        rw [next_of_cut free passed called, if_pos passed]
        exact start
    | scanned free called start characters =>
        rw [called] at failed
        cases failed
  restored := by
    intro lexeme own latest free
    refine ⟨?_, h.start_iff latest⟩
    rw [handBack_eq free latest]
    exact next_handBack free lexeme
  scanned := by
    intro lexeme free ok
    cases w.scanner.comes with
    | again found called =>
        rw [free] at found
        cases found
    | inGap _ cut called start =>
        rw [called] at ok
        cases ok
    | inLexeme _ passed called start =>
        rw [called] at ok
        cases ok
    | @scanned lexeme' s' _ called start characters =>
        rw [called] at ok
        cases ok
        rw [next_of_scanned free called]
        exact ⟨rfl, start, characters⟩

/-- Whatever a source does and in whatever order lexemes are read, handed back and flushed, the
start that is reported belongs to the lexeme returned last if no failure has cut a word or a number
short since that was scanned, and belongs to what was cut short otherwise. -/
theorem start_is_latest_unless_cut (source : Source) (calls : List Call) :
    ((ofSource source).after calls).Accounted :=
  (tracked_after (tracked_ofSource source) calls).accounted

/-- The `x` has been returned when a failure cuts the `ab` short.  The start of the `ab` is reported
then, and the `x` comes again with it. -/
theorem start_of_cut_word :
    let w := (ofSource [.byte 0x78, .byte 0x20, .byte 0x61, .byte 0x62, .pause,
      .failure ⟨.brokenPipe, "pipe closed"⟩]).after [.next, .next]
    w.latest = some (.word "x", ⟨1, 1⟩) ∧ w.scanner.start = ⟨1, 3⟩ ∧
      w.handBack.scanner.next.1 = .ok (.word "x") ∧ w.handBack.scanner.next.2.start = ⟨1, 3⟩ ∧
      ¬ ∀ source calls, ((ofSource source).after calls).Faithful := by
  intro w
  have latest : w.latest = some (.word "x", ⟨1, 1⟩) := by decide +kernel
  have start : w.scanner.start = ⟨1, 3⟩ := by decide +kernel
  refine ⟨latest, start, by decide +kernel, by decide +kernel, ?_⟩
  intro all
  have same : w.scanner.start = w.latestStart := all _ _
  simp only [latestStart, latest, start] at same
  cases same

end Followed

end Scanner

end JamTokens
