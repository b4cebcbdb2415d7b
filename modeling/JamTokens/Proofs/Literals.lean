import JamTokens.Proofs.Rounding
import JamTokens.Proofs.Scanning
import JamTokens.Proofs.Sessions

/-!
# Numeric literals and their values

The exact value of a literal is a quotient by a power of ten.  A lexer that
meets the literal accepts it as a constant exactly if that value lies within
half a unit of its last binary64 place of an integer that fits 31 bits.

For an integer, with or without a point and zeros behind it, this decides
whether it fits 31 bits, however many digits there are.  For a value between
two integers it decides how close it is to one of them: a fraction that is far
enough from every integer is refused, and one that is closer than the format
can tell is taken for the integer.
-/

set_option autoImplicit false

namespace JamTokens

open CharClass Grammar

/-! ## Digits -/

theorem digitValue_lt {c : Char} (h : isDigit c = true) : c.toNat - '0'.toNat < 10 := by
  have high : c.toNat ≤ '9'.toNat := (isDigit_iff.mp h).2
  have nine : '9'.toNat = '0'.toNat + 9 := by decide
  omega

theorem digitValue_pos {c : Char} (h : isDigit c = true) (nonzero : c ≠ '0') :
    0 < c.toNat - '0'.toNat := by
  have low : '0'.toNat ≤ c.toNat := (isDigit_iff.mp h).1
  have other : c.toNat ≠ '0'.toNat := fun same => nonzero (Char.toNat_inj.mp same)
  omega

namespace Grammar

def natural (digits : List Char) : Nat := Nat.ofDigitChars 10 digits 0

theorem natural_append (digits more : List Char) :
    natural (digits ++ more) = 10 ^ more.length * natural digits + natural more := by
  rw [natural, Nat.ofDigitChars_append, Nat.ofDigitChars_eq_ofDigitChars_zero]
  rfl

theorem natural_cons (c : Char) (digits : List Char) :
    natural (c :: digits) = 10 ^ digits.length * (c.toNat - '0'.toNat) + natural digits := by
  rw [natural, Nat.ofDigitChars_cons, Nat.ofDigitChars_eq_ofDigitChars_zero, Nat.mul_zero,
    Nat.zero_add]
  rfl

theorem natural_lt {digits : List Char} (h : IsDigits digits) :
    natural digits < 10 ^ digits.length := by
  induction digits with
  | nil => exact Nat.one_pos
  | cons c digits ih =>
      have rest := ih fun d member => h d (List.mem_cons_of_mem c member)
      have first := digitValue_lt (h c List.mem_cons_self)
      rw [natural_cons, List.length_cons, Nat.pow_succ]
      calc 10 ^ digits.length * (c.toNat - '0'.toNat) + natural digits
          < 10 ^ digits.length * (c.toNat - '0'.toNat) + 10 ^ digits.length := by omega
        _ = 10 ^ digits.length * (c.toNat - '0'.toNat + 1) := (Nat.mul_succ _ _).symm
        _ ≤ 10 ^ digits.length * 10 := Nat.mul_le_mul_left _ first

theorem natural_pos {digits : List Char} (h : IsDigits digits) (some : ∃ d ∈ digits, d ≠ '0') :
    0 < natural digits := by
  induction digits with
  | nil =>
      obtain ⟨d, member, -⟩ := some
      cases member
  | cons c digits ih =>
      rw [natural_cons]
      obtain ⟨d, member, nonzero⟩ := some
      rcases List.mem_cons.mp member with rfl | later
      · exact Nat.add_pos_left (Nat.mul_pos (Nat.pow_pos (by decide))
          (digitValue_pos (h d List.mem_cons_self) nonzero)) _
      · exact Nat.add_pos_right _ (ih (fun e inside => h e (List.mem_cons_of_mem c inside))
          ⟨d, later, nonzero⟩)

theorem natural_zeros (zeros : Nat) : natural (List.replicate zeros '0') = 0 :=
  Nat.ofDigitChars_replicate_zero.trans (Nat.mul_zero _)

/-- The exact value of digits with a point and a fraction behind them. -/
def decimal (digits fraction : List Char) : ℚ :=
  natural (digits ++ fraction) / 10 ^ fraction.length

/-- An integer written with digits, or with a point and zeros behind them. -/
inductive IsInteger : List Char → List Char → Prop
  | whole {digits : List Char} : digits ≠ [] → IsDigits digits → IsInteger digits digits
  | pointed {digits : List Char} {zeros : Nat} : digits ≠ [] ∨ 0 < zeros → IsDigits digits →
      IsInteger digits (digits ++ '.' :: List.replicate zeros '0')

theorem isDigits_zeros (zeros : Nat) : IsDigits (List.replicate zeros '0') := by
  intro d member
  rw [List.eq_of_mem_replicate member]
  decide

theorem IsInteger.isNumber {digits literal : List Char} (h : IsInteger digits literal) :
    IsNumber literal := by
  cases h with
  | whole proper inside => exact .whole proper inside
  | @pointed zeros proper inside =>
      cases digits with
      | nil =>
          refine .fraction ?_ (isDigits_zeros zeros)
          rcases proper with other | some_zero
          · exact absurd rfl other
          · exact List.ne_nil_of_length_pos (by rwa [List.length_replicate])
      | cons d digits => exact .pointed (List.cons_ne_nil d digits) inside (isDigits_zeros zeros)

theorem IsNumber.characters {literal : List Char} (h : IsNumber literal) :
    (∀ d ∈ literal, d ≠ '.' → isDigit d = true) ∧ literal.count '.' ≤ 1 := by
  have none {digits : List Char} (inside : IsDigits digits) : digits.count '.' = 0 :=
    List.count_eq_zero.mpr (not_mem_of_isDigits inside)
  cases h with
  | whole _ inside => exact ⟨fun d member _ => inside d member, by rw [none inside]; decide⟩
  | pointed _ inside inside' =>
      refine ⟨?_, by simp [none inside, none inside']⟩
      intro d member other
      rcases List.mem_append.mp member with front | behind
      · exact inside d front
      · exact inside' d (List.mem_of_ne_of_mem other behind)
  | fraction _ inside =>
      exact ⟨fun d member other => inside d (List.mem_of_ne_of_mem other member),
        by simp [none inside]⟩

theorem IsNumber.isDigits {digits fraction : List Char} (h : IsNumber (digits ++ '.' :: fraction)) :
    IsDigits digits ∧ IsDigits fraction := by
  obtain ⟨proper, points⟩ := h.characters
  rw [List.count_append, List.count_cons_self] at points
  have front : '.' ∉ digits := List.count_eq_zero.mp (by omega)
  have behind : '.' ∉ fraction := List.count_eq_zero.mp (by omega)
  constructor
  · exact fun d member => proper d (List.mem_append_left _ member) fun same => front (same ▸ member)
  · exact fun d member => proper d (List.mem_append_right _ (List.mem_cons_of_mem _ member))
      fun same => behind (same ▸ member)

/-- Digits other than zero behind the point leave no integer. -/
theorem decimal_ne_natCast {digits fraction : List Char} (proper : IsDigits fraction)
    (some : ∃ d ∈ fraction, d ≠ '0') (n : Nat) : decimal digits fraction ≠ n := by
  have low := natural_pos proper some
  have high := natural_lt proper
  have power : (10 : ℚ) ^ fraction.length ≠ 0 := pow_ne_zero _ (by norm_num)
  intro same
  rw [decimal, div_eq_iff power, natural_append] at same
  have whole : 10 ^ fraction.length * natural digits + natural fraction =
      n * 10 ^ fraction.length := by exact_mod_cast same
  have divides : 10 ^ fraction.length ∣ natural fraction :=
    (Nat.dvd_add_right (Nat.dvd_mul_right _ _)).mp (whole ▸ Nat.dvd_mul_left _ n)
  exact absurd (Nat.le_of_dvd low divides) (Nat.not_le.mpr high)

end Grammar

/-! ## Reading a literal -/

theorem read_of_pointed {digits : List Char} (fraction : List Char) (h : IsDigits digits) :
    Decimal.read (digits ++ '.' :: fraction) =
      ⟨natural (digits ++ fraction), fraction.length⟩ := by
  have others : ∀ c ∈ digits, (c != '.') = true := by
    intro c member
    exact bne_iff_ne.mpr fun same => not_mem_of_isDigits h (same ▸ member)
  unfold Decimal.read
  rw [List.takeWhile_append_of_pos others, List.dropWhile_append_of_pos others,
    List.takeWhile_cons_of_neg (by decide), List.dropWhile_cons_of_neg (by decide), List.append_nil]
  rfl

namespace Binary64

theorem halfPlace_pos (q : ℚ) : 0 < halfPlace q := zpow_pos (by norm_num) _

theorem halfPlace_le {q : ℚ} (h : 1 ≤ q) : halfPlace q ≤ q / 2 ^ 53 := by
  have positive : 0 < q := lt_of_lt_of_le one_pos h
  have leading : 0 ≤ Int.log 2 q :=
    (Int.zpow_le_iff_le_log (by decide) positive).mp (by simpa using h)
  have low : (2 : ℚ) ^ Int.log 2 q ≤ q := Int.zpow_log_le_self (by decide) positive
  rw [halfPlace, max_eq_left (by omega), sub_sub, zpow_sub₀ two_ne_zero]
  gcongr
  norm_num

theorem halfPlace_half_lt : halfPlace (1 / 2) < 1 / 2 := by
  have log : Int.log 2 (1 / 2 : ℚ) = -1 := by
    have power : (1 / 2 : ℚ) = (2 : ℕ) ^ (-1 : Int) := by norm_num
    rw [power]
    exact Int.log_zpow (by decide) (-1)
  rw [halfPlace, log]
  norm_num

/-- An integer of more than 31 bits is far from all that fit. -/
theorem halfPlace_lt_sub {v n : Nat} (high : Literal.greatest < v) (low : n ≤ Literal.greatest) :
    halfPlace v < |(v : ℚ) - n| := by
  have one : (1 : ℚ) ≤ v := by exact_mod_cast Nat.one_le_iff_ne_zero.mpr (by omega)
  have high' : (2147483648 : ℚ) ≤ v := by exact_mod_cast high
  have low' : (n : ℚ) ≤ 2147483647 := by exact_mod_cast low
  calc halfPlace v ≤ v / 2 ^ 53 := halfPlace_le one
    _ < v - n := by
      rw [div_lt_iff₀ (by norm_num)]
      linarith
    _ ≤ |(v : ℚ) - n| := le_abs_self _

end Binary64

namespace Literal

open Binary64

/-- A literal is a constant that its exact value is close to. -/
theorem value?_eq_some_iff {text : List Char} {num places n : Nat} {v : ℚ}
    (read : Decimal.read text = ⟨num, places⟩) (exact_value : (num : ℚ) / 10 ^ places = v) :
    value? text = some n ↔ n ≤ greatest ∧ |v - n| ≤ halfPlace v := by
  have power : ((10 ^ places : Nat) : ℚ) = 10 ^ places := by rw [Nat.cast_pow, Nat.cast_ofNat]
  have close (small : n ≤ greatest) :
      (nearest num (10 ^ places)).toNat? = some n ↔ |v - n| ≤ halfPlace v := by
    rw [toNat?_nearest_eq_some_iff (Nat.pow_pos (by decide)) (Nat.lt_of_le_of_lt small (by decide)),
      power, exact_value]
  rw [value?, read, Option.filter_eq_some_iff, decide_eq_true_eq, and_comm]
  exact and_congr_right close

theorem value?_of_isInteger {digits literal : List Char} (h : IsInteger digits literal) :
    value? literal = if natural digits ≤ greatest
      then some (natural digits) else none := by
  have decided {num places : Nat} (read : Decimal.read literal = ⟨num, places⟩)
      (exact_value : (num : ℚ) / 10 ^ places = natural digits) :
      value? literal = if natural digits ≤ greatest
        then some (natural digits) else none := by
    split
    · rename_i fits
      rw [value?_eq_some_iff read exact_value, sub_self, abs_zero]
      exact ⟨fits, (halfPlace_pos _).le⟩
    · rename_i large
      rw [Option.eq_none_iff_forall_ne_some]
      intro n found
      obtain ⟨small, close⟩ := (value?_eq_some_iff read exact_value).mp found
      exact absurd close (not_le.mpr (halfPlace_lt_sub (by omega) small))
  cases h with
  | whole _ inside =>
      refine decided (read_of_isDigits inside) ?_
      rw [pow_zero, div_one]
      rfl
  | @pointed zeros _ inside =>
      refine decided (read_of_pointed _ inside) ?_
      have power : (10 : ℚ) ^ zeros ≠ 0 := pow_ne_zero _ (by norm_num)
      rw [natural_append, natural_zeros, Nat.add_zero, List.length_replicate, Nat.cast_mul,
        Nat.cast_pow, Nat.cast_ofNat, mul_div_cancel_left₀ _ power]

end Literal

/-! ## A literal that a lexer meets -/

namespace Feed

/-- The feed brings the text before anything else, in one segment or in several. -/
inductive Brings : Feed → List Char → Feed → Prop
  | nothing (rest : Feed) : Brings rest [] rest
  | refill {feed rest : Feed} {text : List Char} :
      Brings feed text rest → Brings (.refill none :: feed) text rest
  | char {c : Char} {feed rest : Feed} {text : List Char} :
      Brings feed text rest → Brings (.char c :: feed) (c :: text) rest

/-- The end of input, or a character that cannot go on the number. -/
def EndsNumber (number : List Char) : Feed → Prop
  | [] => True
  | .close :: _ => True
  | .char c :: _ => isDigit c = false ∧ ('.' ∉ number → c ≠ '.')
  | .refill _ :: _ => False

theorem takeSteps_endsNumber {number : List Char} {rest : Feed} (h : EndsNumber number rest) :
    rest.takeSteps Lexeme.numberStep (decide ('.' ∈ number)) = ⟨[], none, rest⟩ := by
  cases rest with
  | nil => rfl
  | cons signal rest =>
      cases signal with
      | close => rfl
      | refill failure => exact absurd h id
      | char c =>
          rw [takeSteps, Lexeme.numberStep_stops h.1 fun unseen => h.2 (of_decide_eq_false unseen)]

theorem Brings.takeSteps {σ : Type} {step : σ → Char → Option σ} {last : σ} {feed rest : Feed}
    {text : List Char} (h : Brings feed text rest)
    (stops : rest.takeSteps step last = ⟨[], none, rest⟩) :
    ∀ state, text.foldlM step state = some last →
      feed.takeSteps step state = ⟨text, none, rest⟩ := by
  induction h with
  | nothing rest =>
      intro state accepted
      cases accepted
      exact stops
  | refill _ ih => exact fun state accepted => ih stops state accepted
  | @char c feed rest text _ ih =>
      intro state accepted
      obtain ⟨next, goes, accepted'⟩ := Option.bind_eq_some_iff.mp accepted
      rw [Feed.takeSteps, goes]
      simp only [ih stops next accepted']
      rfl

theorem brings_ofText (text : List Char) (rest : Feed) : (ofText text ++ rest).Brings text rest := by
  induction text with
  | nil => exact .nothing rest
  | cons c text ih => exact .char ih

theorem Brings.of_fill {feed filled rest : Feed} {text : List Char}
    (h : feed.fill = (none, filled)) (brings : filled.Brings text rest) : feed.Brings text rest := by
  fun_induction fill feed with
  | case1 feed ih => exact .refill (ih h)
  | case2 f feed => cases h
  | case3 feed _ _ =>
      cases h
      exact brings

theorem Delivers.brings {rest : List Char} : ∀ (text : List Char) (feed : Feed),
    feed.Delivers (text ++ rest) → ∃ left, feed.Brings text left ∧ Heads rest left := by
  intro text
  induction text with
  | nil =>
      intro feed delivers
      obtain ⟨left, filled, heads⟩ := delivers.heads
      exact ⟨left, .of_fill filled (.nothing left), heads⟩
  | cons c text ih =>
      intro feed delivers
      obtain ⟨next, filled, -, behind⟩ := delivers.fill_cons
      obtain ⟨left, brings, heads⟩ := ih next behind
      exact ⟨left, .of_fill filled (.char brings), heads⟩

end Feed

theorem Scanner.scan_of_brings {s : Scanner} {literal : String} {c : Char} {body : List Char}
    {feed rest : Feed} (number : IsNumber literal.toList) (ahead : s.cursor.feed = .char c :: feed)
    (spelled : literal.toList = c :: body) (joined : Feed.Joins c feed body)
    (brings : feed.Brings body rest) (ends : rest.EndsNumber literal.toList) :
    s.scan = (.ok (.number literal),
      ⟨⟨rest, s.cursor.position.after literal.toList⟩, s.returned, s.cursor.position⟩) := by
  have whole : s.cursor.feed.Brings literal.toList rest := by
    rw [ahead, spelled]
    exact .char brings
  have steps := whole.takeSteps (Feed.takeSteps_endsNumber ends) false (Lexeme.number_steps number)
  obtain ⟨c', body', spelled', other, begins⟩ := number_head number
  obtain ⟨rfl, rfl⟩ := List.cons_eq_cons.mp (spelled.symm.trans spelled')
  have starts : startsNumber c feed = true := by
    rcases begins with digit | ⟨rfl, d, first, digit⟩
    · exact startsNumber_of_isDigit feed digit
    · have together := joined d first (Or.inr ⟨rfl, digit⟩)
      obtain ⟨feed, rfl⟩ := List.head?_eq_some_iff.mp together
      simp [startsNumber, Feed.buffered, digit]
  rw [scan_number ahead other starts, steps]
  simp [finish, Cursor.pass]

namespace Lexer

/-- The lexeme that comes next is a numeric literal: it lies ahead behind blanks and comments, or it
has been handed back.  It starts at the given place, and the cursor stands behind it then. -/
inductive Meets (l : Lexer) (literal : String) : Position → Cursor → Prop
  | ahead {gap body : List Char} {c : Char} {feed rest : Feed} :
      l.scanner.returned = none →
      l.cursor.feed.takeGap false = ⟨gap, none, .char c :: feed⟩ →
      literal.toList = c :: body → Feed.Joins c feed body → feed.Brings body rest →
      rest.EndsNumber literal.toList →
      Meets l literal (l.cursor.position.after gap)
        ⟨rest, l.cursor.position.after (gap ++ literal.toList)⟩
  | handedBack {start : Position} : l.scanner.returned = some (.number literal, start) →
      Meets l literal start l.cursor

theorem meets_of_delivers {l : Lexer} {gap rest : List Char} {literal : String}
    (fresh : l.scanner.returned = none) (valid : Gap gap (literal.toList ++ rest))
    (fits : Fits (.number literal) rest)
    (delivers : l.cursor.feed.Delivers (gap ++ (literal.toList ++ rest))) :
    ∃ left, Feed.Heads rest left ∧ l.Meets literal (l.cursor.position.after gap)
      ⟨left, l.cursor.position.after (gap ++ literal.toList)⟩ := by
  obtain ⟨ahead, taken, heads⟩ := Feed.takeGap_gap valid fits.stops.2 _ delivers
  cases fits with
  | number number stop point =>
      obtain ⟨c, body, spelled, -, -⟩ := Scanner.number_head number
      rw [spelled, List.cons_append] at heads
      obtain ⟨feed, rfl, joins, behind⟩ := heads.cons
      obtain ⟨left, brings, after⟩ := Feed.Delivers.brings body feed behind
      have joined : Feed.Joins c feed body :=
        fun d first => joins d (by rw [List.head?_append, first, Option.some_or])
      have ends : left.EndsNumber literal.toList := by
        cases after with
        | ended finished =>
            rcases finished.eq with rfl | ⟨closed, rfl⟩ <;> trivial
        | char _ _ => exact ⟨stop _ rfl, fun unseen same => point unseen (congrArg some same)⟩
      exact ⟨left, after, .ahead fresh taken spelled joined brings ends⟩

/-- A lexer that takes up its input at the cursor and knows some identifiers. -/
def resumed (cursor : Cursor) (symbols : Symbols) : Lexer :=
  ⟨⟨cursor, none, cursor.position⟩, symbols, none, cursor.position⟩

section

variable {l : Lexer} {literal : String} {start : Position} {behind : Cursor}

theorem next_of_meets (h : l.Meets literal start behind) (number : IsNumber literal.toList) :
    l.scanner.next = (.ok (.number literal), ⟨behind, none, start⟩) := by
  cases h with
  | @ahead gap body c feed rest fresh taken spelled joined brings ends =>
      have passed : l.scanner.cursor.pass (l.scanner.cursor.feed.takeGap false) =
          ⟨.char c :: feed, l.cursor.position.after gap⟩ :=
        congrArg l.scanner.cursor.pass taken
      rw [Scanner.next_of_gap fresh (congrArg Feed.Run.failure taken), passed,
        Scanner.scan_of_brings number rfl spelled joined brings ends, fresh, Position.after_append]
  | handedBack back => simp [Scanner.next, back, Lexer.cursor]

theorem read_constant (fresh : l.peeked = none) (h : l.Meets literal start behind)
    (number : IsNumber literal.toList) {n : Nat} (value : Literal.value? literal.toList = some n) :
    l.read = (.ok (some (.intConstant n)), ⟨⟨behind, none, start⟩, l.symbols, none, start⟩) := by
  unfold read assemble ofLexeme
  rw [fresh, next_of_meets h number]
  dsimp only
  rw [value]
  simp

theorem read_overflow (fresh : l.peeked = none) (h : l.Meets literal start behind)
    (number : IsNumber literal.toList) (value : Literal.value? literal.toList = none) :
    l.read = (.error (.numericOverflow literal start),
      ⟨⟨behind, none, start⟩, l.symbols, none, l.position⟩) := by
  unfold read assemble ofLexeme
  rw [fresh, next_of_meets h number]
  dsimp only
  rw [value]

theorem read_consumes (fresh : l.peeked = none) (h : l.Meets literal start behind)
    (number : IsNumber literal.toList) :
    ∃ position, l.read.2 = ⟨⟨behind, none, start⟩, l.symbols, none, position⟩ := by
  cases value : Literal.value? literal.toList with
  | none => exact ⟨l.position, by rw [read_overflow fresh h number value]⟩
  | some n => exact ⟨start, by rw [read_constant fresh h number value]⟩

end

/-! ## Going on behind a literal -/

theorem lower_zero (a : Answer) : a.lower 0 = a := by
  rcases a with ⟨e | token, start, line, symbols⟩
  · cases e <;> cases start <;> rfl
  · cases start <;> rfl

/-- Where the latest token started makes no difference to what follows. -/
theorem answers_resumed (cursor : Cursor) (symbols : Symbols) (start position : Position)
    (calls : List Call) :
    (Lexer.mk ⟨cursor, none, start⟩ symbols none position).answers calls =
      (resumed cursor symbols).answers calls := by
  have below : Below 0 (resumed cursor symbols) ⟨⟨cursor, none, start⟩, symbols, none, position⟩ :=
    ⟨⟨rfl, rfl, rfl⟩, rfl, rfl⟩
  rw [below_answers below, List.map_congr_left (fun a _ => lower_zero a), List.map_id']

theorem text_intConstant (n : Nat) : (Token.intConstant n).text.toList = Nat.toDigits 10 n := by
  have written : (Token.intConstant n).text = toString n := rfl
  rw [written, Nat.toString_eq_repr, Nat.toList_repr]

/-! ## Literals decided -/

/-- Whether an integer becomes a constant depends on its value alone, and what follows it is lexed
as if it had not been there. -/
theorem integer_literals_decided {l : Lexer} {digits : List Char} {literal : String}
    {start : Position} {behind : Cursor} (fresh : l.peeked = none)
    (meets : l.Meets literal start behind) (integer : IsInteger digits literal.toList) :
    l.read.1 = (if natural digits ≤ Literal.greatest
      then .ok (some (.intConstant (natural digits)))
      else .error (.numericOverflow literal start)) ∧
    (natural digits ≤ Literal.greatest → l.read.2.position = start) ∧
    (Token.intConstant (natural digits)).text.toList =
      Nat.toDigits 10 (natural digits) ∧
    l.read.2.cursor = behind ∧
    ∀ calls, l.read.2.answers calls = (resumed behind l.symbols).answers calls := by
  have number := integer.isNumber
  have value := Literal.value?_of_isInteger integer
  obtain ⟨position, left⟩ := read_consumes fresh meets number
  refine ⟨?_, ?_, text_intConstant _, by rw [left]; rfl, fun calls => by rw [left, answers_resumed]⟩
  · split <;> rename_i fits
    · rw [if_pos fits] at value
      rw [read_constant fresh meets number value]
    · rw [if_neg fits] at value
      rw [read_overflow fresh meets number value]
  · intro fits
    rw [if_pos fits] at value
    rw [read_constant fresh meets number value]

theorem integer_literals_decided_padded :
    (ofFeed (Feed.ofText [' ', '0', '7', '.', '0', ';'])).peeked = none ∧
      (ofFeed (Feed.ofText [' ', '0', '7', '.', '0', ';'])).Meets "07.0" ⟨1, 2⟩
        ⟨[.char ';'], ⟨1, 6⟩⟩ ∧
      IsInteger ['0', '7'] "07.0".toList ∧
      (ofFeed (Feed.ofText [' ', '0', '7', '.', '0', ';'])).read.1 = .ok (some (.intConstant 7)) ∧
      (ofFeed (Feed.ofText [' ', '0', '7', '.', '0', ';'])).read.2.position = ⟨1, 2⟩ ∧
      (Token.intConstant 7).text.toList = ['7'] ∧
      (ofFeed (Feed.ofText [' ', '0', '7', '.', '0', ';'])).read.2.cursor = ⟨[.char ';'], ⟨1, 6⟩⟩ := by
  have meets : (ofFeed (Feed.ofText [' ', '0', '7', '.', '0', ';'])).Meets "07.0" ⟨1, 2⟩
      ⟨[.char ';'], ⟨1, 6⟩⟩ :=
    @Meets.ahead _ _ [' '] ['7', '.', '0'] '0' _ _ rfl rfl rfl
      (fun _ _ decides => by simp [Decides] at decides) (Feed.brings_ofText ['7', '.', '0'] _)
      ⟨rfl, fun _ => by decide⟩
  have integer : IsInteger ['0', '7'] "07.0".toList :=
    @IsInteger.pointed ['0', '7'] 1 (.inl (by decide)) (List.all_eq_true.mp rfl)
  obtain ⟨result, position, text, consumed, -⟩ := integer_literals_decided rfl meets integer
  exact ⟨rfl, meets, integer, result, position (by decide), text, consumed⟩

/-- A fraction is refused exactly if it is further from every constant than the format can tell. -/
theorem fraction_overflows_iff {l : Lexer} {digits fraction : List Char} {literal : String}
    {start : Position} {behind : Cursor} (fresh : l.peeked = none)
    (meets : l.Meets literal start behind) (number : IsNumber literal.toList)
    (spelled : literal.toList = digits ++ '.' :: fraction) (part : ∃ d ∈ fraction, d ≠ '0') :
    (∀ n : Nat, decimal digits fraction ≠ n) ∧
    (l.read.1 = .error (.numericOverflow literal start) ↔ ∀ n ≤ Literal.greatest,
      Binary64.halfPlace (decimal digits fraction) < |decimal digits fraction - n|) ∧
    ∀ n : Nat, l.read.1 = .ok (some (.intConstant n)) ↔ n ≤ Literal.greatest ∧
      |decimal digits fraction - n| ≤ Binary64.halfPlace (decimal digits fraction) := by
  obtain ⟨whole, proper⟩ := (spelled ▸ number).isDigits
  have read : Decimal.read literal.toList = ⟨natural (digits ++ fraction), fraction.length⟩ := by
    rw [spelled, read_of_pointed fraction whole]
  have accepted (n : Nat) := Literal.value?_eq_some_iff (n := n) read rfl
  refine ⟨decimal_ne_natCast proper part, ?_⟩
  cases value : Literal.value? literal.toList with
  | none =>
      rw [value] at accepted
      rw [read_overflow fresh meets number value]
      have far : ∀ n ≤ Literal.greatest,
          ¬ |decimal digits fraction - n| ≤ Binary64.halfPlace (decimal digits fraction) :=
        fun n small close => nomatch (accepted n).mpr ⟨small, close⟩
      refine ⟨iff_of_true rfl fun n small => not_le.mp (far n small), fun n => ?_⟩
      exact iff_of_false (fun other => nomatch other) fun near => far n near.1 near.2
  | some m =>
      rw [value] at accepted
      rw [read_constant fresh meets number value]
      obtain ⟨small, close⟩ := (accepted m).mp rfl
      refine ⟨iff_of_false (fun other => nomatch other) fun far => ?_, fun n => ?_⟩
      · exact absurd close (not_le.mpr (far m small))
      · exact Iff.trans (by simp) (accepted n)

theorem half_le_abs_half_sub (n : Nat) : (1 / 2 : ℚ) ≤ |1 / 2 - (n : ℚ)| := by
  cases n with
  | zero => norm_num
  | succ n =>
      have positive : (0 : ℚ) ≤ n := Nat.cast_nonneg n
      rw [abs_sub_comm, Nat.cast_succ]
      exact le_trans (by linarith) (le_abs_self _)

theorem fraction_overflows_iff_half :
    (ofFeed (Feed.ofText ".5".toList)).peeked = none ∧
      (ofFeed (Feed.ofText ".5".toList)).Meets ".5" ⟨1, 1⟩ ⟨[], ⟨1, 3⟩⟩ ∧
      IsNumber ".5".toList ∧ ".5".toList = [] ++ '.' :: ['5'] ∧ (∃ d ∈ ['5'], d ≠ '0') ∧
      (∀ n : Nat, decimal [] ['5'] ≠ n) ∧
      (ofFeed (Feed.ofText ".5".toList)).read.1 = .error (.numericOverflow ".5" ⟨1, 1⟩) := by
  have meets : (ofFeed (Feed.ofText ".5".toList)).Meets ".5" ⟨1, 1⟩ ⟨[], ⟨1, 3⟩⟩ :=
    @Meets.ahead _ _ [] ['5'] '.' [.char '5'] [] rfl rfl rfl
      (fun d first _ => congrArg (Option.map Signal.char) first) (Feed.brings_ofText ['5'] []) trivial
  have number : IsNumber ".5".toList := .fraction (by decide) (List.all_eq_true.mp rfl)
  have part : ∃ d ∈ ['5'], d ≠ '0' := ⟨'5', List.mem_singleton_self '5', by decide⟩
  obtain ⟨between, refused, -⟩ :=
    fraction_overflows_iff rfl meets number (show ".5".toList = [] ++ '.' :: ['5'] from rfl) part
  have half : decimal [] ['5'] = 1 / 2 := by
    have five : natural ([] ++ ['5']) = 5 := rfl
    rw [decimal, five]
    norm_num
  refine ⟨rfl, meets, number, rfl, part, between, refused.mpr ?_⟩
  intro n _
  rw [half]
  calc Binary64.halfPlace (1 / 2) < 1 / 2 := Binary64.halfPlace_half_lt
    _ ≤ |1 / 2 - (n : ℚ)| := half_le_abs_half_sub n

/-- Too close to one to be told from it. -/
theorem tiny_fraction_accepted :
    "1.00000000000000000001".toList = ['1'] ++ '.' :: (List.replicate 19 '0' ++ ['1']) ∧
      IsNumber (['1'] ++ '.' :: (List.replicate 19 '0' ++ ['1'])) ∧
      (∃ d ∈ List.replicate 19 '0' ++ ['1'], d ≠ '0') ∧
      (ofSource (Source.ofText "1.00000000000000000001".toList)).read.1 =
        .ok (some (.intConstant 1)) := by
  have last : '1' ∈ List.replicate 19 '0' ++ ['1'] :=
    List.mem_append_right _ (List.mem_singleton_self '1')
  refine ⟨rfl, ?_, ⟨'1', last, by decide⟩, by decide +kernel⟩
  exact .pointed (by decide) (List.all_eq_true.mp rfl) (List.all_eq_true.mp rfl)

end Lexer

end JamTokens
