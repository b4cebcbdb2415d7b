import JamTokens.Proofs.Scanning
import JamTokens.Proofs.Assembly

/-!
# Pauses in the middle of a line

A source may pause in the middle of a line and go on with it.  The pause ends
the buffered segment, and only two tests of the scanner look further than the
next character: the one for the second slash of a comment and the one for the
digit behind a leading point.

So a pause that does not part such a pair cannot be seen.  All else goes on
across it: words, numbers, comments, and characters that pair with an equals sign.
-/

set_option autoImplicit false

namespace JamTokens

/-- A character of a text, and whether the source pauses right behind it. -/
structure PacedChar where
  char : Char
  pauses : Bool
  deriving DecidableEq, Repr

/-- A text with the places at which its source pauses. -/
abbrev PacedText := List PacedChar

namespace PacedText

def text (paced : PacedText) : List Char := paced.map PacedChar.char

def source : PacedText → Source
  | [] => []
  | p :: rest => Source.ofText [p.char] ++ ((if p.pauses then [.pause] else []) ++ source rest)

/-- Each pause is in the middle of a line, and none parts two characters of which the second
decides what the first one is. -/
def Seamless : PacedText → Prop
  | [] => True
  | p :: rest =>
    (p.pauses = true → p.char ≠ '\n' ∧ ∀ d, (text rest).head? = some d → ¬ Decides p.char d) ∧
      Seamless rest

end PacedText

/-! ## The feed of a source that pauses -/

namespace Source

theorem feedFrom_pause (line : List Char) (proper : line ≠ []) (rest : Source) :
    feedFrom (Utf8.encode line).reverse (.pause :: rest) =
      .refill none :: (Feed.ofText line ++ feedFrom [] rest) := by
  have collected : (Utf8.encode line).reverse ≠ [] := by
    cases line with
    | nil => exact absurd rfl proper
    | cons c line => simp [Utf8.encode_cons, String.utf8EncodeChar_ne_nil]
  rw [feedFrom, if_neg collected, List.reverse_reverse, segment_encode]
  rfl

-- The line is what has been collected of it since the last pause.
theorem feedFrom_paced (paced : PacedText) (h : paced.Seamless) (line : List Char) :
    Feed.Delivers (feedFrom (Utf8.encode line).reverse paced.source) (line ++ paced.text) := by
  induction paced generalizing line with
  | nil => exact feedFrom_delivers [] line
  | cons p rest ih =>
      obtain ⟨c, pauses⟩ := p
      obtain ⟨apart, seamless⟩ := h
      have behind := ih seamless
      have source : PacedText.source (⟨c, pauses⟩ :: rest) =
          ofBytes (String.utf8EncodeChar c) ++
            ((if pauses then [.pause] else []) ++ PacedText.source rest) := by
        rw [PacedText.source, ofText_cons, List.append_assoc]
        rfl
      rw [source, PacedText.text, List.map_cons, List.append_cons line c _]
      by_cases newline : c = '\n'
      · subst newline
        have steady : pauses = false := by
          rw [← Bool.not_eq_true]
          exact fun paused => (apart paused).1 rfl
        subst steady
        rw [Utf8.encodeChar_newline]
        exact (feedFrom_newline line _).symm ▸ .refill (behind []).append_line
      · rw [feedFrom_char newline]
        cases pauses with
        | false => exact behind (line ++ [c])
        | true =>
            have pause := feedFrom_pause (line ++ [c]) (by simp) (PacedText.source rest)
            refine pause.symm ▸ .refill ((behind []).append (line ++ [c]) ?_)
            intro e d last first
            rw [List.getLast?_append, List.getLast?_singleton, Option.some_or,
              Option.some.injEq] at last
            exact last ▸ (apart rfl).2 d first

theorem paced_delivers {paced : PacedText} (h : paced.Seamless) :
    Feed.Delivers paced.source.feed paced.text :=
  feedFrom_paced paced h []

end Source

/-! ## Items across pauses -/

namespace Lexer

/-- What a lexer makes of a feed depends on nothing but the text that the feed delivers. -/
theorem items_of_delivers {feed other : Feed} {text : List Char} (h : feed.Delivers text)
    (h' : other.Delivers text) :
    ((ofFeed feed).items .readOn).1 = ((ofFeed other).items .readOn).1 ∧
      ((ofFeed feed).items .readOn).2.symbols = ((ofFeed other).items .readOn).2.symbols := by
  obtain ⟨lexemes, cut⟩ := Grammar.cut_exists [] text
  have read : (Scanner.ofFeed feed).readings = (Scanner.ofFeed other).readings :=
    (Scanner.readings_of_cut cut _ rfl rfl h).trans (Scanner.readings_of_cut cut _ rfl rfl h').symm
  have same : (ofFeed feed).pending = (ofFeed other).pending := congrArg (Pending.mk · .initial) read
  obtain ⟨items, symbols⟩ := (ofFeed feed).items_readOn (Scanner.settled_ofFeed feed) rfl
  obtain ⟨items', symbols'⟩ := (ofFeed other).items_readOn (Scanner.settled_ofFeed other) rfl
  rw [items, symbols, items', symbols', same]
  exact ⟨rfl, rfl⟩

/-- Wherever a source pauses in its lines, unless it parts two slashes or a point and a digit, its
items are those of the text in one piece, and so are the symbols behind them. -/
theorem items_across_pauses (paced : PacedText) (h : paced.Seamless) :
    ((ofSource paced.source).items .readOn).1 =
        ((ofSource (.ofText paced.text)).items .readOn).1 ∧
      ((ofSource paced.source).items .readOn).2.symbols =
        ((ofSource (.ofText paced.text)).items .readOn).2.symbols :=
  items_of_delivers (Source.paced_delivers h) (Source.ofText_delivers paced.text)

/-- Pauses within a word, an operator, a number and a comment, and at the end. -/
theorem items_across_pauses_everywhere :
    let paced : PacedText :=
      [⟨'x', true⟩, ⟨'y', true⟩, ⟨'<', true⟩, ⟨'=', true⟩, ⟨'1', true⟩, ⟨'.', false⟩, ⟨'0', true⟩,
        ⟨'/', false⟩, ⟨'/', true⟩, ⟨'é', true⟩]
    paced.Seamless ∧
      ((ofSource paced.source).items .readOn).1 =
        ((ofSource (.ofText paced.text)).items .readOn).1 ∧
      ((ofSource paced.source).items .readOn).2.symbols =
        ((ofSource (.ofText paced.text)).items .readOn).2.symbols := by
  intro paced
  have seamless : paced.Seamless := by
    simp [paced, PacedText.Seamless, PacedText.text, Decides]
  exact ⟨seamless, items_across_pauses paced seamless⟩

/-- A pause between two slashes makes two operators of them. -/
example :
    ((ofSource (PacedText.source [⟨'/', true⟩, ⟨'/', false⟩])).items .readOn).1 =
        [.token (.operator .divide) ⟨1, 1⟩, .token (.operator .divide) ⟨1, 2⟩] ∧
      ((ofSource (.ofText ['/', '/'])).items .readOn).1 = [] := by
  decide +kernel

end Lexer

end JamTokens
