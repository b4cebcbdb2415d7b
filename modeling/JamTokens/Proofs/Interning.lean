import JamTokens.Proofs.Sessions
import Mathlib.Data.List.Dedup

/-!
# What a session binds

A lexer binds a word when a read or a peek makes a token of it, and at no other
time.  Each spelling is bound once and for good, so identifiers that are handed
out share their binding exactly if they are spelled alike.

A token that has been looked at was bound then.  So the invariant between the
calls of a session holds of the symbols, the words made into tokens so far, the
identifiers handed out so far, and the token looked at.
-/

set_option autoImplicit false

namespace JamTokens

def Token.ident? : Token → Option Ident
  | identifier name => some name
  | _ => none

/-- The token is one of the fixed set: neither an integer constant nor an identifier. -/
def Token.isFixed : Token → Bool
  | intConstant _ => false
  | identifier _ => false
  | _ => true

theorem Token.ident?_of_isFixed {token : Token} (h : token.isFixed = true) : token.ident? = none := by
  cases token with
  | identifier name => cases h
  | _ => rfl

theorem mem_reservedWords {spelling : String} {token : Token}
    (h : reservedWords.lookup spelling = some token) : (spelling, token) ∈ reservedWords := by
  obtain ⟨front, back, whole, -⟩ := List.lookup_eq_some_iff.mp h
  simp [whole]

theorem isFixed_of_reserved {spelling : String} {token : Token}
    (h : reservedWords.lookup spelling = some token) : token.isFixed = true := by
  have fixed : ∀ entry ∈ reservedWords, entry.2.isFixed = true := by decide
  exact fixed (spelling, token) (mem_reservedWords h)

def unreserved (words : List String) : List String :=
  (words.filter fun spelling => (reservedWords.lookup spelling).isNone).dedup

theorem mem_unreserved {words : List String} {spelling : String} :
    spelling ∈ unreserved words ↔ spelling ∈ words ∧ reservedWords.lookup spelling = none := by
  rw [unreserved, List.mem_dedup, List.mem_filter, Option.isNone_iff_eq_none]

/-! ## Symbol tables -/

namespace Symbols

theorem get?_of_reserved (t : Symbols) {spelling : String} {token : Token}
    (h : reservedWords.lookup spelling = some token) : t.get? spelling = some token := by
  simp [get?, h]

theorem resolve_of_reserved (t : Symbols) {spelling : String} {token : Token}
    (h : reservedWords.lookup spelling = some token) : t.resolve spelling = (token, t) := by
  simp [resolve, resolveAs, t.get?_of_reserved h]

theorem resolveAs_cases (t : Symbols) (act : Nat) (spelling : String) :
    (∃ token, reservedWords.lookup spelling = some token ∧
        t.resolveAs act spelling = (token, t)) ∨
      (∃ name ∈ t.bound, reservedWords.lookup spelling = none ∧ name.spelling = spelling ∧
        t.resolveAs act spelling = (.identifier name, t)) ∨
      (reservedWords.lookup spelling = none ∧ spelling ∉ t.bound.map Ident.spelling ∧
        t.resolveAs act spelling =
          (.identifier ⟨spelling, act⟩, ⟨t.bound ++ [⟨spelling, act⟩]⟩)) := by
  cases reserved : reservedWords.lookup spelling with
  | some token => exact Or.inl ⟨token, rfl, by simp [resolveAs, get?, reserved]⟩
  | none =>
      right
      cases found : t.bound.find? (·.spelling == spelling) with
      | some name =>
          left
          have alike : name.spelling = spelling := by simpa using List.find?_some found
          exact ⟨name, List.mem_of_find?_eq_some found, rfl, alike,
            by simp [resolveAs, get?, reserved, found]⟩
      | none =>
          right
          refine ⟨rfl, ?_, by simp [resolveAs, get?, reserved, found]⟩
          simpa using found

theorem resolve_cases (t : Symbols) (spelling : String) :
    (∃ token, reservedWords.lookup spelling = some token ∧ t.resolve spelling = (token, t)) ∨
      (∃ name ∈ t.bound, reservedWords.lookup spelling = none ∧ name.spelling = spelling ∧
        t.resolve spelling = (.identifier name, t)) ∨
      (reservedWords.lookup spelling = none ∧ spelling ∉ t.bound.map Ident.spelling ∧
        t.resolve spelling = (.identifier ⟨spelling, t.bound.length⟩,
          ⟨t.bound ++ [⟨spelling, t.bound.length⟩]⟩)) :=
  t.resolveAs_cases t.bound.length spelling

theorem resolveAs_token (t : Symbols) (act : Nat) (spelling : String) :
    reservedWords.lookup spelling = some (t.resolveAs act spelling).1 ∨
      reservedWords.lookup spelling = none ∧
        ∃ name, (t.resolveAs act spelling).1 = .identifier name ∧ name.spelling = spelling := by
  rcases t.resolveAs_cases act spelling with
    ⟨token, reserved, made⟩ | ⟨name, -, free, alike, made⟩ | ⟨free, -, made⟩
  · exact Or.inl (by rw [made, reserved])
  · exact Or.inr ⟨free, name, by rw [made], alike⟩
  · exact Or.inr ⟨free, _, by rw [made], rfl⟩

theorem resolve_token (t : Symbols) (spelling : String) :
    reservedWords.lookup spelling = some (t.resolve spelling).1 ∨
      reservedWords.lookup spelling = none ∧
        ∃ name, (t.resolve spelling).1 = .identifier name ∧ name.spelling = spelling :=
  t.resolveAs_token t.bound.length spelling

theorem resolveAs_text (t : Symbols) (act : Nat) (spelling : String) :
    (t.resolveAs act spelling).1.text = spelling := by
  rcases t.resolveAs_token act spelling with reserved | ⟨-, name, made, alike⟩
  · have texts : ∀ entry ∈ reservedWords, entry.2.text = entry.1 := by decide
    exact texts (spelling, _) (mem_reservedWords reserved)
  · rw [made]
    exact alike

theorem resolve_text (t : Symbols) (spelling : String) : (t.resolve spelling).1.text = spelling :=
  t.resolveAs_text t.bound.length spelling

theorem resolve_prefix (t : Symbols) (spelling : String) :
    t.bound <+: (t.resolve spelling).2.bound := by
  rcases t.resolve_cases spelling with ⟨_, _, made⟩ | ⟨_, _, _, _, made⟩ | ⟨_, _, made⟩
  · exact made ▸ List.prefix_rfl
  · exact made ▸ List.prefix_rfl
  · exact made ▸ List.prefix_append _ _

theorem get?_of_prefix {t t' : Symbols} (h : t.bound <+: t'.bound) {spelling : String}
    {token : Token} (found : t.get? spelling = some token) : t'.get? spelling = some token := by
  obtain ⟨more, extended⟩ := h
  unfold get? at found ⊢
  cases reserved : reservedWords.lookup spelling with
  | some other =>
      rw [reserved] at found
      exact found
  | none =>
      rw [reserved] at found
      dsimp only at found ⊢
      obtain ⟨name, first, rfl⟩ := Option.map_eq_some_iff.mp found
      rw [← extended, List.find?_append, first]
      rfl

/-- The table binds the words made into tokens that are not reserved, each once, to the identifiers
handed out. -/
structure Interns (t : Symbols) (words : List String) (handed : List Ident) : Prop where
  distinct : (t.bound.map Ident.spelling).Nodup
  words : ∀ spelling, spelling ∈ t.bound.map Ident.spelling ↔
    spelling ∈ words ∧ reservedWords.lookup spelling = none
  handed : ∀ name, name ∈ handed ↔ name ∈ t.bound

section Interns

variable {t : Symbols} {words : List String} {handed : List Ident}

theorem interns_initial : Interns .initial [] [] where
  distinct := List.nodup_nil
  words := by simp [initial]
  handed := by simp [initial]

theorem Interns.again (h : t.Interns words handed) {token : Token}
    (bound : ∀ name, token.ident? = some name → name ∈ t.bound) :
    t.Interns words (handed ++ token.ident?.toList) := by
  refine ⟨h.distinct, h.words, ?_⟩
  intro name
  rw [List.mem_append, h.handed, Option.mem_toList]
  exact ⟨fun found => found.elim id (bound name), Or.inl⟩

theorem Interns.reserved_word (h : t.Interns words handed) {spelling : String} {token : Token}
    (reserved : reservedWords.lookup spelling = some token) :
    t.Interns (words ++ [spelling]) handed := by
  refine ⟨h.distinct, ?_, h.handed⟩
  intro other
  rw [h.words, List.mem_append, List.mem_singleton]
  constructor
  · exact fun ⟨made, free⟩ => ⟨Or.inl made, free⟩
  · rintro ⟨made | rfl, free⟩
    · exact ⟨made, free⟩
    · rw [reserved] at free
      cases free

theorem Interns.bound_word (h : t.Interns words handed) {name : Ident} (bound : name ∈ t.bound) :
    t.Interns (words ++ [name.spelling]) handed := by
  refine ⟨h.distinct, ?_, h.handed⟩
  have known := (h.words name.spelling).mp (List.mem_map_of_mem bound)
  intro other
  rw [h.words, List.mem_append, List.mem_singleton]
  constructor
  · exact fun ⟨made, free⟩ => ⟨Or.inl made, free⟩
  · rintro ⟨made | rfl, free⟩
    · exact ⟨made, free⟩
    · exact known

theorem Interns.new_word (h : t.Interns words handed) {name : Ident}
    (free : reservedWords.lookup name.spelling = none)
    (fresh : name.spelling ∉ t.bound.map Ident.spelling) :
    Interns ⟨t.bound ++ [name]⟩ (words ++ [name.spelling]) (handed ++ [name]) := by
  refine ⟨?_, ?_, ?_⟩
  · rw [List.map_append, List.map_singleton]
    exact h.distinct.append (List.nodup_singleton _) (by simpa using fresh)
  · intro other
    rw [List.map_append, List.map_singleton, List.mem_append, List.mem_append, List.mem_singleton,
      h.words]
    constructor
    · rintro (⟨made, free⟩ | rfl)
      · exact ⟨Or.inl made, free⟩
      · exact ⟨Or.inr rfl, free⟩
    · rintro ⟨made | rfl, free⟩
      · exact Or.inl ⟨made, free⟩
      · exact Or.inr rfl
  · intro other
    rw [List.mem_append, List.mem_append, h.handed]

theorem Interns.resolve (h : t.Interns words handed) (spelling : String) :
    (t.resolve spelling).2.Interns (words ++ [spelling])
        (handed ++ (t.resolve spelling).1.ident?.toList) ∧
      ∀ name, (t.resolve spelling).1.ident? = some name → name ∈ (t.resolve spelling).2.bound := by
  rcases t.resolve_cases spelling with
    ⟨token, reserved, made⟩ | ⟨name, bound, free, rfl, made⟩ | ⟨free, fresh, made⟩
  · rw [made]
    have other : ∀ name, token.ident? = some name → name ∈ t.bound := by
      intro name found
      rw [Token.ident?_of_isFixed (isFixed_of_reserved reserved)] at found
      cases found
    exact ⟨(h.reserved_word reserved).again other, other⟩
  · rw [made]
    have this_name : ∀ found, (Token.identifier name).ident? = some found → found ∈ t.bound := by
      intro found same
      cases same
      exact bound
    exact ⟨(h.bound_word bound).again this_name, this_name⟩
  · rw [made]
    refine ⟨h.new_word free fresh, ?_⟩
    intro found same
    cases same
    exact List.mem_append_right _ List.mem_cons_self

theorem Interns.free (h : t.Interns words handed) {name : Ident} (member : name ∈ handed) :
    name.spelling ∈ words ∧ reservedWords.lookup name.spelling = none :=
  (h.words name.spelling).mp (List.mem_map_of_mem ((h.handed name).mp member))

theorem Interns.same (h : t.Interns words handed) {a b : Ident} (ha : a ∈ handed) (hb : b ∈ handed)
    (alike : a.spelling = b.spelling) : a = b :=
  List.inj_on_of_nodup_map h.distinct ((h.handed a).mp ha) ((h.handed b).mp hb) alike

theorem Interns.get?_word (h : t.Interns words handed) {spelling : String}
    (free : reservedWords.lookup spelling = none) (made : spelling ∈ words) :
    ∃ name ∈ handed, name.spelling = spelling ∧ t.get? spelling = some (.identifier name) := by
  obtain ⟨name, bound, rfl⟩ := List.mem_map.mp ((h.words spelling).mpr ⟨made, free⟩)
  cases found : t.bound.find? (·.spelling == name.spelling) with
  | none => simpa using List.find?_eq_none.mp found name bound
  | some first =>
      have alike : first.spelling = name.spelling := by simpa using List.find?_some found
      refine ⟨first, (h.handed first).mpr (List.mem_of_find?_eq_some found), alike, ?_⟩
      simp [get?, free, found]

theorem Interns.get?_other (h : t.Interns words handed) {spelling : String}
    (free : reservedWords.lookup spelling = none) (other : spelling ∉ words) :
    t.get? spelling = none := by
  have unbound : spelling ∉ t.bound.map Ident.spelling :=
    fun bound => other ((h.words spelling).mp bound).1
  simp only [get?, free, Option.map_eq_none_iff, List.find?_eq_none, beq_iff_eq]
  exact fun name bound same => unbound (List.mem_map.mpr ⟨name, bound, same⟩)

theorem Interns.size_eq (h : t.Interns words handed) :
    t.size = 20 + (unreserved words).length := by
  have alike : (t.bound.map Ident.spelling).Perm (unreserved words) := by
    unfold unreserved
    rw [List.perm_ext_iff_of_nodup h.distinct (List.nodup_dedup _)]
    intro spelling
    exact (h.words spelling).trans mem_unreserved.symm
  rw [size, ← alike.length_eq, List.length_map]
  rfl

end Interns

end Symbols

/-! ## Tokens that are not made of words -/

theorem Token.isFixed_of_ofChar? {c : Char} {token : Token} (h : ofChar? c = some token) :
    token.isFixed = true := by
  unfold ofChar? at h
  split at h <;> cases h <;> rfl

theorem Pairing.isFixed_of_ofChar? {c : Char} {pairing : Pairing} (h : ofChar? c = some pairing) :
    pairing.paired.isFixed = true ∧
      ∀ token, pairing.single = some token → token.isFixed = true := by
  unfold ofChar? at h
  split at h <;> cases h <;> exact ⟨rfl, by rintro _ ⟨⟩ <;> rfl⟩

/-- With an equals sign a colon makes what every table binds to the two, which leaves the table. -/
theorem Pairing.paired_colon (t : Symbols) :
    ∃ pairing, ofChar? ':' = some pairing ∧ t.resolve ":=" = (pairing.paired, t) :=
  ⟨_, rfl, t.resolve_of_reserved rfl⟩

namespace Lexer

/-- Nothing is bound and no identifier comes out. -/
structure MakesNoWord {α : Type} (token? : α → Option Token) (l : Lexer)
    (outcome : Except LexError α × Lexer) : Prop where
  symbols : outcome.2.symbols = l.symbols
  token : ∀ value token, outcome.1 = .ok value → token? value = some token → token.ident? = none

section MakesNoWord

variable {α : Type} {token? : α → Option Token} {l l' : Lexer}

theorem makesNoWord_error (same : l'.symbols = l.symbols) (e : LexError) :
    MakesNoWord token? l (.error e, l') :=
  ⟨same, fun _ _ found => nomatch found⟩

theorem makesNoWord_token (same : l'.symbols = l.symbols) {value : α} {token : Token}
    (made : token? value = some token) (other : token.ident? = none) :
    MakesNoWord token? l (.ok value, l') := by
  refine ⟨same, ?_⟩
  rintro value' token' ⟨⟩ made'
  rw [made] at made'
  cases made'
  exact other

end MakesNoWord

theorem pair_makesNoWord (l : Lexer) {c : Char} {pairing : Pairing} (start : Position)
    (pairs : Pairing.ofChar? c = some pairing) : MakesNoWord some l (l.pair c pairing start) := by
  obtain ⟨paired, single⟩ := Pairing.isFixed_of_ofChar? pairs
  unfold pair
  rcases l.scanner.next with ⟨f | follower, s⟩
  · exact makesNoWord_error (by rfl) _
  · dsimp only
    split
    · exact makesNoWord_token (by rfl) rfl (Token.ident?_of_isFixed paired)
    · cases alone : pairing.single with
      | some token =>
          exact makesNoWord_token (by rfl) rfl (Token.ident?_of_isFixed (single token alone))
      | none => exact makesNoWord_error (by rfl) _

theorem ofChar_makesNoWord (l : Lexer) (c : Char) (start : Position) :
    MakesNoWord some l (l.ofChar c start) := by
  unfold ofChar
  cases own : Token.ofChar? c with
  | some token =>
      exact makesNoWord_token (by rfl) rfl (Token.ident?_of_isFixed (Token.isFixed_of_ofChar? own))
  | none =>
      cases pairs : Pairing.ofChar? c with
      | some pairing => exact l.pair_makesNoWord start pairs
      | none => exact makesNoWord_error (by rfl) _

theorem ofLexeme_makesNoWord (l : Lexer) {lexeme : Lexeme} (start : Position)
    (other : ∀ text, lexeme ≠ .word text) : MakesNoWord id l (l.ofLexeme lexeme start) := by
  cases lexeme with
  | endOfInput => exact ⟨rfl, by rintro _ token ⟨⟩ ⟨⟩⟩
  | word text => exact absurd rfl (other text)
  | number text =>
      unfold ofLexeme
      dsimp only
      split
      · exact makesNoWord_token (by rfl) rfl rfl
      · exact makesNoWord_error (by rfl) _
  | char c =>
      obtain ⟨symbols, token⟩ := l.ofChar_makesNoWord c start
      unfold ofLexeme
      dsimp only
      rcases found : l.ofChar c start with ⟨e | made, l'⟩
      · rw [found] at symbols
        exact makesNoWord_error symbols e
      · rw [found] at symbols token
        exact makesNoWord_token symbols rfl (token made made rfl rfl)

theorem assemble_makesNoWord (l : Lexer) (other : ∀ text, l.scanner.next.1 ≠ .ok (.word text)) :
    MakesNoWord (·.map (·.1)) l l.assemble := by
  unfold assemble
  rcases called : l.scanner.next with ⟨f | lexeme, s⟩
  · exact makesNoWord_error (by rfl) _
  · rw [called] at other
    obtain ⟨symbols, token⟩ := ofLexeme_makesNoWord { l with scanner := s } s.start
      (fun text same => other text (congrArg Except.ok same))
    dsimp only
    rcases found : ofLexeme { l with scanner := s } lexeme s.start with ⟨e | (_ | made), l'⟩
    · rw [found] at symbols
      have kept : l'.symbols = l.symbols := symbols
      exact makesNoWord_error kept e
    · rw [found] at symbols
      exact ⟨symbols, by rintro _ token ⟨⟩ ⟨⟩⟩
    · rw [found] at symbols token
      have kept : l'.symbols = l.symbols := symbols
      exact makesNoWord_token kept rfl (token (some made) made rfl rfl)

theorem assemble_word {l : Lexer} {text : String} {s : Scanner}
    (h : l.scanner.next = (.ok (.word text), s)) :
    l.assemble = (.ok (some ((l.symbols.resolve text).1, s.start)),
      { l with scanner := s, symbols := (l.symbols.resolve text).2 }) := by
  unfold assemble
  rw [h]
  rfl

/-! ## Sessions -/

def nextWord (l : Lexer) : Option String :=
  match l.scanner.next.1 with
  | .ok (.word text) => some text
  | _ => none

/-- The word that a call makes a token of.  A flush makes no token, and neither does a call that
finds a token looked at. -/
def wordMade (l : Lexer) (c : Call) : Option String :=
  if c = .flush ∨ l.peeked.isSome then none else l.nextWord

/-- The words that the calls of a session make tokens of. -/
def wordsMade (l : Lexer) : List Call → List String
  | [] => []
  | c :: calls => (l.wordMade c).toList ++ (l.call c).2.wordsMade calls

end Lexer

def Answer.ident? (a : Answer) : Option Ident :=
  match a.result with
  | .ok (some token) => token.ident?
  | _ => none

namespace Lexer

def identsHanded (l : Lexer) (calls : List Call) : List Ident :=
  (l.answers calls).filterMap Answer.ident?

/-- The symbols are in order, and the token looked at was bound when it was made. -/
structure Interning (l : Lexer) (words : List String) (handed : List Ident) : Prop where
  symbols : l.symbols.Interns words handed
  peeked : ∀ token start, l.peeked = some (token, start) →
    ∀ name, token.ident? = some name → name ∈ l.symbols.bound

/-- A call does one of three things: it hands out the token looked at, it makes a token of a word,
or it hands out no identifier. -/
inductive Hands (l : Lexer) (c : Call) : Prop
  | again {token : Token} {start : Position} (peeked : l.peeked = some (token, start))
      (word : l.wordMade c = none) (result : (l.call c).1 = .ok (some token))
      (symbols : (l.call c).2.symbols = l.symbols)
      (kept : ∀ next, (l.call c).2.peeked = some next → next.1 = token)
  | word {text : String} (word : l.wordMade c = some text)
      (result : (l.call c).1 = .ok (some (l.symbols.resolve text).1))
      (symbols : (l.call c).2.symbols = (l.symbols.resolve text).2)
      (kept : ∀ next, (l.call c).2.peeked = some next → next.1 = (l.symbols.resolve text).1)
  | other (word : l.wordMade c = none)
      (result : ∀ token, (l.call c).1 = .ok (some token) → token.ident? = none)
      (symbols : (l.call c).2.symbols = l.symbols)
      (kept : ∀ next, (l.call c).2.peeked = some next → next.1.ident? = none)

theorem nextWord_eq_some {l : Lexer} {text : String} :
    l.nextWord = some text ↔ l.scanner.next.1 = .ok (.word text) := by
  unfold nextWord
  split
  · next word found => simp [found]
  · next other => exact ⟨(fun found => nomatch found), fun found => absurd found (other text)⟩

theorem hands_assembled {l : Lexer} (fresh : l.peeked = none) {c : Call} (pulls : c ≠ .flush) :
    Hands l c := by
  obtain ⟨result, symbols, kept⟩ := call_assembles fresh pulls
  have made : l.wordMade c = l.nextWord := if_neg (by simp [pulls, fresh])
  cases word : l.nextWord with
  | some text =>
      rw [assemble_word (Prod.ext (nextWord_eq_some.mp word) rfl)] at result symbols kept
      refine .word (made.trans word) result symbols ?_
      intro next found
      have same := kept next found
      cases same
      rfl
  | none =>
      have other : ∀ text, l.scanner.next.1 ≠ .ok (.word text) := by
        intro text found
        rw [nextWord_eq_some.mpr found] at word
        cases word
      obtain ⟨unbound, token⟩ := l.assemble_makesNoWord other
      refine .other (made.trans word) ?_ (symbols.trans unbound) ?_
      · intro found returned
        rw [result] at returned
        rcases first : l.assemble.1 with e | (_ | next) <;> rw [first] at returned <;>
          cases returned
        exact token (some next) next.1 first rfl
      · intro next found
        exact token (some next) next.1 (kept next found) rfl

theorem call_hands (l : Lexer) (c : Call) : Hands l c := by
  cases c with
  | flush =>
      have dropped : (l.call .flush).2.peeked = none ∧ (l.call .flush).2.symbols = l.symbols ∧
          ∀ token, (l.call .flush).1 ≠ .ok (some token) := by
        unfold call flush
        rcases l.scanner.flush with ⟨f | _, s⟩ <;> exact ⟨rfl, rfl, fun _ found => nomatch found⟩
      obtain ⟨peeked, symbols, result⟩ := dropped
      exact .other rfl (fun token found => absurd found (result token)) symbols
        (fun next found => absurd (peeked.symm.trans found) (by simp))
  | read =>
      rcases peeked : l.peeked with _ | ⟨token, start⟩
      · exact hands_assembled peeked (by decide)
      · exact .again peeked (by simp [wordMade, peeked]) (by simp [call, read, peeked])
          (by simp [call, read, peeked]) (by simp [call, read, peeked])
  | peek =>
      rcases peeked : l.peeked with _ | ⟨token, start⟩
      · exact hands_assembled peeked (by decide)
      · exact .again peeked (by simp [wordMade, peeked]) (by simp [call, peek, peeked])
          (by simp [call, peek, peeked]) (by simp [call, peek, peeked])

/-! ## What the calls preserve -/

theorem interning_ofSource (source : Source) : Interning (ofSource source) [] [] :=
  ⟨Symbols.interns_initial, fun _ _ found => nomatch found⟩

theorem Interning.call {l : Lexer} {words : List String} {handed : List Ident}
    (h : Interning l words handed) (c : Call) :
    Interning (l.call c).2 (words ++ (l.wordMade c).toList)
      (handed ++ (l.answer c).ident?.toList) := by
  cases l.call_hands c with
  | again peeked word result symbols kept =>
      have bound := h.peeked _ _ peeked
      rw [word, Option.toList_none, List.append_nil, Answer.ident?, answer, result]
      refine ⟨symbols ▸ h.symbols.again bound, ?_⟩
      intro token start found
      obtain rfl := kept _ found
      exact symbols ▸ bound
  | word word result symbols kept =>
      obtain ⟨interns, bound⟩ := h.symbols.resolve _
      rw [word, Option.toList_some, Answer.ident?, answer, result]
      refine ⟨symbols ▸ interns, ?_⟩
      intro token start found
      obtain rfl := kept _ found
      exact symbols ▸ bound
  | other word result symbols kept =>
      have none_handed : (l.answer c).ident? = none := by
        unfold Answer.ident? answer
        dsimp only
        split
        · next token returned => exact result token returned
        · rfl
      rw [word, none_handed, Option.toList_none, Option.toList_none, List.append_nil,
        List.append_nil]
      refine ⟨symbols ▸ h.symbols, ?_⟩
      intro token start found name same
      rw [kept _ found] at same
      cases same

theorem Interning.session {l : Lexer} {words : List String} {handed : List Ident}
    (h : Interning l words handed) (calls : List Call) :
    Interning (l.afterCalls calls) (words ++ l.wordsMade calls)
      (handed ++ l.identsHanded calls) := by
  induction calls generalizing l words handed with
  | nil => simpa [afterCalls, wordsMade, identsHanded, answers] using h
  | cons c calls ih =>
      have behind := ih (h.call c)
      rw [List.append_assoc, List.append_assoc] at behind
      have handed_cons : l.identsHanded (c :: calls) =
          (l.answer c).ident?.toList ++ (l.call c).2.identsHanded calls := by
        cases first : (l.answer c).ident? <;> simp [identsHanded, answers, first]
      rw [handed_cons]
      exact behind

theorem call_of_wordMade {l : Lexer} {c : Call} {text : String} (word : l.wordMade c = some text) :
    ∃ token, (l.call c).1 = .ok (some token) ∧ token.text = text := by
  cases l.call_hands c with
  | again _ other _ _ _ =>
      rw [word] at other
      cases other
  | word same result _ _ =>
      rw [word] at same
      cases same
      exact ⟨_, result, l.symbols.resolve_text text⟩
  | other other _ _ _ =>
      rw [word] at other
      cases other

theorem symbols_of_wordMade {l : Lexer} {c : Call} (word : l.wordMade c = none) :
    (l.call c).2.symbols = l.symbols := by
  cases l.call_hands c with
  | again _ _ _ symbols _ => exact symbols
  | word made _ _ _ =>
      rw [word] at made
      cases made
  | other _ _ symbols _ => exact symbols

theorem call_bound (l : Lexer) (c : Call) : l.symbols.bound <+: (l.call c).2.symbols.bound := by
  cases l.call_hands c with
  | again _ _ _ symbols _ => exact symbols ▸ List.prefix_rfl
  | word _ _ symbols _ => exact symbols ▸ l.symbols.resolve_prefix _
  | other _ _ symbols _ => exact symbols ▸ List.prefix_rfl

theorem afterCalls_bound (l : Lexer) (calls : List Call) :
    l.symbols.bound <+: (l.afterCalls calls).symbols.bound := by
  induction calls generalizing l with
  | nil => exact List.prefix_rfl
  | cons c calls ih => exact (l.call_bound c).trans (ih (l.call c).2)

/-- Whatever calls have been made, the symbols are the reserved words and one identifier for each
other word that a call has made a token of; a call that makes no token of a word binds nothing.
What is bound stays so, and identifiers handed out at any two times share their binding exactly if
they are spelled alike. -/
theorem session_interns (source : Source) (calls : List Call) :
    let l := (ofSource source).afterCalls calls
    let words := unreserved ((ofSource source).wordsMade calls)
    let handed := (ofSource source).identsHanded calls
    (∀ spelling token, reservedWords.lookup spelling = some token →
        l.symbols.get? spelling = some token) ∧
      (∀ spelling ∈ words, ∃ name ∈ handed, name.spelling = spelling ∧
        l.symbols.get? spelling = some (.identifier name)) ∧
      (∀ spelling, reservedWords.lookup spelling = none → spelling ∉ words →
        l.symbols.get? spelling = none) ∧
      l.symbols.size = 20 + words.length ∧
      (∀ c, match l.wordMade c with
        | some text => ∃ token, (l.call c).1 = .ok (some token) ∧ token.text = text
        | none => (l.call c).2.symbols = l.symbols) ∧
      (∀ more spelling token, l.symbols.get? spelling = some token →
        (l.afterCalls more).symbols.get? spelling = some token) ∧
      (∀ a ∈ handed, ∀ b ∈ handed, a.shares b = true ↔ a.spelling = b.spelling) ∧
      ∀ name ∈ handed, name.spelling ∈ words ∧ reservedWords.lookup name.spelling = none := by
  intro l words handed
  have interns : l.symbols.Interns ((ofSource source).wordsMade calls) handed :=
    ((interning_ofSource source).session calls).symbols
  refine ⟨fun spelling token => l.symbols.get?_of_reserved, ?_, ?_, interns.size_eq, ?_, ?_, ?_, ?_⟩
  · intro spelling made
    obtain ⟨made, free⟩ := mem_unreserved.mp made
    exact interns.get?_word free made
  · intro spelling free other
    exact interns.get?_other free (fun made => other (mem_unreserved.mpr ⟨made, free⟩))
  · intro c
    split
    · next text word => exact call_of_wordMade word
    · next word => exact symbols_of_wordMade word
  · intro more spelling token
    exact Symbols.get?_of_prefix (l.afterCalls_bound more)
  · intro a ha b hb
    rw [Ident.shares, decide_eq_true_iff]
    exact ⟨congrArg Ident.spelling, interns.same ha hb⟩
  · intro name member
    exact ⟨mem_unreserved.mpr (interns.free member), (interns.free member).2⟩

end Lexer

end JamTokens
