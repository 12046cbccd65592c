import CopperTidy.Proofs.SExpr.Fronts
import Mathlib.Data.List.Induction

/-! # What the reader says of a text

The reader tells apart what a text can begin with, and so what it answers is read off the grammar.
Each token is followed at its place, since two of the answers tell a place.
-/

namespace CopperTidy.SExpr
set_option autoImplicit false

/-! ## Places -/

/-- The place of the character after `before`: lines are counted by the line breaks, columns from
the last of them. -/
def Place.following (before : List Char) : Place where
  line := before.count '\n' + 1
  column := (before.reverse.takeWhile (· != '\n')).length + 1

theorem past_eq_following (before : List Char) : Place.past {} before = .following before := by
  induction before using List.reverseRecOn with
  | nil => rfl
  | append_singleton before c ih =>
    have last : Place.past {} (before ++ [c]) = (Place.past {} before).after c :=
      List.foldl_append
    rw [last, ih]
    by_cases newline : c = '\n'
    · simp [Place.following, Place.after, newline]
    · simp [Place.following, Place.after, newline]

variable {cs rest gap : List Char} {e : SExpr}

/-! ## Reading -/

theorem past_append (p : Place) (cs ds : List Char) : p.past (cs ++ ds) = (p.past cs).past ds :=
  List.foldl_append

/-- Reading goes on at a place of the text, between two tokens. -/
def readFrom (lists : Open) (p : Place) (cs : List Char) : Except ReadError (SExpr × List Token) :=
  readFirst lists (Token.scanFrom .nothing p cs)

theorem scan_gap (blank : IsGap gap) (p : Place) (cs : List Char) :
    Token.scanFrom .nothing p (gap ++ cs) = Token.scanFrom .nothing (p.past gap) cs := by
  induction gap generalizing p with
  | nil => rfl
  | cons c gap ih =>
    obtain ⟨here, more⟩ := List.forall_mem_cons.mp blank
    rw [List.cons_append, Token.scanFrom, Token.step, begin_blank here]
    exact ih more (p.after c)

theorem readFrom_gap (blank : IsGap gap) (lists : Open) (p : Place) (cs : List Char) :
    readFrom lists p (gap ++ cs) = readFrom lists (p.past gap) cs := by
  rw [readFrom, scan_gap blank, readFrom]

theorem readFrom_list_end (done : List SExpr) (lists : Open) (p : Place) (rest : List Char) :
    readFrom (done :: lists) p (')' :: rest) =
      resume (deliver (.list done.reverse) lists) (Token.scanFrom .nothing (p.after ')') rest) :=
  readFirst_cons _ rfl

mutual

/-- An expression is read to where it ends, and delivered. -/
theorem readFrom_spells : {cs : List Char} → {e : SExpr} → Spells cs e → {rest : List Char} →
    Ends rest e → (lists : Open) → (p : Place) →
      readFrom lists p (cs ++ rest) =
        resume (deliver e lists) (Token.scanFrom .nothing (p.past cs) rest)
  | _, _, .atom nonempty symbols, _, ends, lists, p => by
    rw [readFrom, scan_symbol nonempty symbols ends]
    exact readFirst_cons _ rfl
  | _, _, .quoted inner, rest, _, lists, p => by
    rw [readFrom, List.cons_append, List.cons_append, List.append_assoc, List.singleton_append,
      scan_string inner]
    exact readFirst_cons _ rfl
  | _, _, @Spells.list cs _ inner, rest, _, lists, p => by
    have stops : Stops (')' :: rest) := stops_cons (by decide)
    have items := readFrom_items inner stops [] lists (p.after '(')
    have opened : readFrom lists p ('(' :: (cs ++ ')' :: rest)) =
        readFrom ([] :: lists) (p.after '(') (cs ++ ')' :: rest) := rfl
    rw [List.cons_append, List.cons_append, List.append_assoc, List.singleton_append, opened, items,
      readFrom_list_end]
    simp [Place.past]

/-- So are the items of a list, one after the other. -/
theorem readFrom_items : {cs : List Char} → {items : List SExpr} → SpellsItems cs items →
    {rest : List Char} → Stops rest → (done : List SExpr) → (lists : Open) → (p : Place) →
      readFrom (done :: lists) p (cs ++ rest) =
        readFrom ((items.reverse ++ done) :: lists) (p.past cs) rest
  | _, _, .nil blank, _, _, done, lists, p => readFrom_gap blank _ p _
  | _, _, .cons blank first ends more, rest, stops, done, lists, p => by
    rw [List.append_assoc, List.append_assoc, readFrom_gap blank,
      readFrom_spells first (ends.append stops), deliver, resume]
    refine (readFrom_items more stops (_ :: done) lists _).trans ?_
    simp [past_append]

end

theorem readFrom_broken (h : BreaksOff cs) (lists : Open) (p : Place) :
    readFrom lists p cs = .error .unexpectedEnd := by
  induction h generalizing lists p with
  | @string cs s inner =>
    have scanned := scanFrom_string inner [] [] p (p.after '"')
    rw [List.append_nil] at scanned
    have unclosed : Token.scanFrom .nothing p ('"' :: cs) = [⟨.unclosed, p⟩] := scanned
    rw [readFrom, unclosed]
    rfl
  | @escape cs s inner =>
    have scanned := scanFrom_string inner [] ['\\'] p (p.after '"')
    have unclosed : Token.scanFrom .nothing p ('"' :: (cs ++ ['\\'])) = [⟨.unclosed, p⟩] := scanned
    rw [readFrom, unclosed]
    rfl
  | @list cs items inner =>
    have items := readFrom_items inner stops_nil [] lists (p.after '(')
    rw [List.append_nil] at items
    exact items
  | @item cs ds items inner last ih =>
    have stops : Stops (ds ++ []) := last.stops
    rw [List.append_nil] at stops
    have items := readFrom_items inner stops [] lists (p.after '(')
    exact items.trans (ih _ _)

/-- A token that is under way has its place already. -/
def Pending.start? : Pending → Option Place
  | .nothing => none
  | .symbol _ start | .quoted _ start | .escape _ start => some start

theorem scanFrom_pending {pending : Pending} {start : Place} (h : pending.start? = some start)
    (p : Place) (cs : List Char) :
    ∃ lexeme tokens, Token.scanFrom pending p cs = ⟨lexeme, start⟩ :: tokens := by
  induction cs generalizing pending p with
  | nil =>
    cases pending with
    | nothing => cases h
    | symbol | quoted | escape =>
      cases h
      exact ⟨_, [], rfl⟩
  | cons c cs ih =>
    cases pending with
    | nothing => cases h
    | symbol collected place =>
      cases h
      by_cases symbol : isSymbolChar c = true
      · simp only [Token.scanFrom, Token.step, symbol, if_true, List.nil_append]
        exact ih rfl (p.after c)
      · simp only [Token.scanFrom, Token.step, symbol]
        exact ⟨_, _, rfl⟩
    | quoted collected place =>
      cases h
      simp only [Token.scanFrom, Token.step]
      split
      · exact ⟨_, _, rfl⟩
      · split
        · exact ih rfl (p.after c)
        · exact ih rfl (p.after c)
    | escape collected place =>
      cases h
      exact ih rfl (p.after c)

/-- What is not blank begins a token. -/
theorem scan_first {c : Char} (solid : Text.isBlank c = false) (p : Place) (cs : List Char) :
    ∃ lexeme tokens, Token.scanFrom .nothing p (c :: cs) = ⟨lexeme, p⟩ :: tokens := by
  simp only [Token.scanFrom, Token.step, Token.begin]
  split
  · exact ⟨_, _, rfl⟩
  split
  · exact ⟨_, _, rfl⟩
  split
  · exact scanFrom_pending rfl (p.after c) cs
  · rw [solid]
    exact scanFrom_pending rfl (p.after c) cs

/-! ## Outcomes -/

/-- After blanks the text begins with a closing parenthesis, which stands at the place. -/
def BeginsClosed (text : List Char) (place : Place) : Prop :=
  ∃ gap rest, IsGap gap ∧ text = gap ++ ')' :: rest ∧ place = .following gap

/-- Something follows the first expression of the text, and is first met on the line. -/
def GoesOn (text : List Char) (line : Nat) : Prop :=
  ∃ before cs gap c rest e, IsGap before ∧ Spells cs e ∧ IsGap gap ∧ Text.isBlank c = false ∧
    Ends (gap ++ c :: rest) e ∧ text = before ++ cs ++ gap ++ c :: rest ∧
      line = (Place.following (before ++ cs ++ gap)).line

variable {text : String}

theorem read_document (h : SpellsDocument text.toList e) : read text = .ok e := by
  obtain ⟨before, cs, after, blank, spells, blank', split⟩ := h
  have root := readFrom_spells spells (ends_of_stops (stops_gap blank')) [] (Place.past {} before)
  have nothing := scan_gap blank' ((Place.past {} before).past cs) []
  rw [List.append_nil] at nothing
  rw [deliver, resume, nothing] at root
  have first : readFirst [] (Token.scan text.toList) = .ok (e, []) := by
    rw [split, List.append_assoc]
    exact (readFrom_gap blank [] {} (cs ++ after)).trans root
  rw [read, ofTokens, first]

theorem read_beginsClosed {place : Place} (h : BeginsClosed text.toList place) :
    read text = .error (.unbalanced place) := by
  obtain ⟨gap, rest, blank, split, rfl⟩ := h
  have first : readFirst [] (Token.scan text.toList) =
      .error (.unbalanced (.following gap)) := by
    rw [split, ← past_eq_following]
    exact readFrom_gap blank [] {} (')' :: rest)
  rw [read, ofTokens, first]

theorem read_goesOn {line : Nat} (h : GoesOn text.toList line) :
    read text = .error (.trailing line) := by
  obtain ⟨before, cs, gap, c, rest, e, blank, spells, blank', solid, ends, split, rfl⟩ := h
  have root := readFrom_spells spells ends [] (Place.past {} before)
  have place : ((Place.past {} before).past cs).past gap = .following (before ++ cs ++ gap) := by
    rw [← past_eq_following, past_append, past_append]
  obtain ⟨lexeme, tokens, more⟩ := scan_first solid (.following (before ++ cs ++ gap)) rest
  rw [deliver, resume, scan_gap blank', place, more] at root
  have first : readFirst [] (Token.scan text.toList) =
      .ok (e, ⟨lexeme, .following (before ++ cs ++ gap)⟩ :: tokens) := by
    rw [split, List.append_assoc, List.append_assoc]
    exact (readFrom_gap blank [] {} _).trans root
  rw [read, ofTokens, first]

theorem read_gap (blank : IsGap text.toList) : read text = .error .unexpectedEnd := by
  have first : readFirst [] (Token.scan text.toList) = .error .unexpectedEnd := by
    have ended := readFrom_gap blank [] {} []
    rw [List.append_nil] at ended
    exact ended
  rw [read, ofTokens, first]

theorem read_broken (blank : IsGap gap) (breaks : BreaksOff cs) (split : text.toList = gap ++ cs) :
    read text = .error .unexpectedEnd := by
  have first : readFirst [] (Token.scan text.toList) = .error .unexpectedEnd := by
    rw [split]
    exact (readFrom_gap blank [] {} cs).trans (readFrom_broken breaks [] _)
  rw [read, ofTokens, first]

/-- A text that spells nothing, and is the beginning of one that spells something. -/
def Unfinished (text : List Char) : Prop :=
  (¬ ∃ e, SpellsDocument text e) ∧ ∃ more e, SpellsDocument (text ++ more) e

theorem extendable_gap (blank : IsGap gap) : ∃ more e, SpellsDocument (gap ++ more) e := by
  have letter : Spells ['a'] (.atom "a") := by
    refine .atom (List.cons_ne_nil _ _) fun c mem => ?_
    rw [List.mem_singleton.mp mem]
    decide
  exact ⟨['a'], _, gap, ['a'], [], blank, letter, isGap_nil, by simp⟩

theorem extendable_broken (blank : IsGap gap) (breaks : BreaksOff cs) :
    ∃ more e, SpellsDocument (gap ++ cs ++ more) e := by
  obtain ⟨more, e, spells⟩ := breaks.completed
  exact ⟨more, e, gap, cs ++ more, [], blank, spells, isGap_nil, by simp⟩

theorem gap_or_solid (cs : List Char) :
    IsGap cs ∨ ∃ gap c rest, IsGap gap ∧ Text.isBlank c = false ∧ cs = gap ++ c :: rest := by
  induction cs with
  | nil => exact .inl isGap_nil
  | cons c cs ih =>
    by_cases blank : Text.isBlank c = true
    · rcases ih with gap | ⟨gap, d, rest, more, solid, rfl⟩
      · exact .inl (isGap_cons blank gap)
      · exact .inr ⟨c :: gap, d, rest, isGap_cons blank more, solid, rfl⟩
    · exact .inr ⟨[], c, cs, isGap_nil, Bool.eq_false_iff.mpr blank, rfl⟩

/-- There is no other outcome than these four. -/
theorem outcome (text : String) :
    (∃ e, SpellsDocument text.toList e) ∨ (∃ place, BeginsClosed text.toList place) ∨
      (∃ line, GoesOn text.toList line) ∨
      read text = .error .unexpectedEnd ∧ ∃ more e, SpellsDocument (text.toList ++ more) e := by
  have begins := front text.toList
  generalize split : text.toList = cs at begins
  cases begins with
  | nothing blank => exact .inr (.inr (.inr ⟨read_gap (split ▸ blank), extendable_gap blank⟩))
  | @closing gap rest blank => exact .inr (.inl ⟨_, gap, rest, blank, rfl, rfl⟩)
  | @whole gap cs rest e blank spells ends =>
    rcases gap_or_solid rest with after | ⟨after, c, rest, blank', solid, rfl⟩
    · exact .inl ⟨e, gap, cs, rest, blank, spells, after, rfl⟩
    · refine .inr (.inr (.inl ⟨_, gap, cs, after, c, rest, e, blank, spells, blank', solid, ends,
        ?_, rfl⟩))
      simp
  | @broken gap cs blank breaks =>
    exact .inr (.inr (.inr ⟨read_broken blank breaks split, extendable_broken blank breaks⟩))

theorem BeginsClosed.append {cs : List Char} {place : Place} (h : BeginsClosed cs place)
    (more : List Char) : BeginsClosed (cs ++ more) place := by
  obtain ⟨gap, rest, blank, rfl, at_place⟩ := h
  exact ⟨gap, rest ++ more, blank, by simp, at_place⟩

theorem GoesOn.append {cs : List Char} {line : Nat} (h : GoesOn cs line) (more : List Char) :
    GoesOn (cs ++ more) line := by
  obtain ⟨before, cs, gap, c, rest, e, blank, spells, blank', solid, ends, rfl, at_line⟩ := h
  have longer : Ends (gap ++ c :: (rest ++ more)) e := by
    have longer : Ends (gap ++ c :: rest ++ more) e := (ends_append_iff (by simp)).mpr ends
    rwa [List.append_assoc, List.cons_append] at longer
  exact ⟨before, cs, gap, c, rest ++ more, e, blank, spells, blank', solid, longer, by simp,
    at_line⟩

theorem not_accepted_of_error {error : ReadError} (h : read text = .error error) :
    ¬ ∃ e, SpellsDocument text.toList e := by
  rintro ⟨e, document⟩
  rw [read_document document] at h
  cases h

theorem not_extendable {cs : List Char}
    (refused : ∀ more, ∃ error, read (String.ofList (cs ++ more)) = .error error) :
    ¬ ∃ more e, SpellsDocument (cs ++ more) e := by
  rintro ⟨more, e, document⟩
  obtain ⟨error, read⟩ := refused more
  refine not_accepted_of_error read ⟨e, ?_⟩
  rwa [String.toList_ofList]

theorem BeginsClosed.not_extendable {cs : List Char} {place : Place} (h : BeginsClosed cs place) :
    ¬ ∃ more e, SpellsDocument (cs ++ more) e := by
  refine SExpr.not_extendable fun more => ⟨.unbalanced place, read_beginsClosed ?_⟩
  rw [String.toList_ofList]
  exact h.append more

theorem GoesOn.not_extendable {cs : List Char} {line : Nat} (h : GoesOn cs line) :
    ¬ ∃ more e, SpellsDocument (cs ++ more) e := by
  refine SExpr.not_extendable fun more => ⟨.trailing line, read_goesOn ?_⟩
  rw [String.toList_ofList]
  exact h.append more

/-- The end is met just in a text that more text would complete. -/
theorem read_unexpectedEnd_iff :
    read text = .error .unexpectedEnd ↔ Unfinished text.toList := by
  constructor
  · intro ended
    refine ⟨not_accepted_of_error ended, ?_⟩
    rcases outcome text with ⟨e, document⟩ | ⟨place, closed⟩ | ⟨line, goes⟩ | ⟨_, extendable⟩
    · exact absurd ⟨e, document⟩ (not_accepted_of_error ended)
    · rw [read_beginsClosed closed] at ended
      cases ended
    · rw [read_goesOn goes] at ended
      cases ended
    · exact extendable
  · rintro ⟨refused, extendable⟩
    rcases outcome text with accepted | ⟨place, closed⟩ | ⟨line, goes⟩ | ⟨ended, _⟩
    · exact absurd accepted refused
    · exact absurd extendable closed.not_extendable
    · exact absurd extendable goes.not_extendable
    · exact ended

/-- Each answer of the reader comes of its own kind of text only. -/
theorem read_kind (text : String) :
    (∀ e, read text = .ok e → SpellsDocument text.toList e) ∧
      (∀ place, read text = .error (.unbalanced place) → BeginsClosed text.toList place) ∧
        ∀ line, read text = .error (.trailing line) → GoesOn text.toList line := by
  rcases outcome text with ⟨e, document⟩ | ⟨place, closed⟩ | ⟨line, goes⟩ | ⟨ended, _⟩
  · rw [read_document document]
    refine ⟨fun f h => ?_, nofun, nofun⟩
    cases h
    exact document
  · rw [read_beginsClosed closed]
    refine ⟨nofun, fun other h => ?_, nofun⟩
    cases h
    exact closed
  · rw [read_goesOn goes]
    refine ⟨nofun, nofun, fun other h => ?_⟩
    cases h
    exact goes
  · rw [ended]
    exact ⟨nofun, nofun, nofun⟩

/-- The reader accepts just the texts of the grammar, each as the one expression that it spells. It
finds a parenthesis unbalanced just if the text begins with it, and where it stands; it meets the
end just if the text is the beginning of an accepted one; and all other texts go on after their
expression. -/
theorem read_outcomes (text : String) :
    (∀ e, read text = .ok e ↔ SpellsDocument text.toList e) ∧
      (∀ e f, SpellsDocument text.toList e → SpellsDocument text.toList f → e = f) ∧
      (∀ place, read text = .error (.unbalanced place) ↔ BeginsClosed text.toList place) ∧
      (read text = .error .unexpectedEnd ↔ Unfinished text.toList) ∧
      (∀ line, read text = .error (.trailing line) ↔ GoesOn text.toList line) ∧
      ((∃ line, GoesOn text.toList line) ↔
        ¬ (∃ e, SpellsDocument text.toList e) ∧ ¬ (∃ place, BeginsClosed text.toList place) ∧
          ¬ Unfinished text.toList) := by
  obtain ⟨accepts, unbalanced, trails⟩ := read_kind text
  refine ⟨fun e => ⟨accepts e, read_document⟩, fun e f first second => ?_,
    fun place => ⟨unbalanced place, read_beginsClosed⟩, read_unexpectedEnd_iff,
    fun line => ⟨trails line, read_goesOn⟩, ?_⟩
  · have same := (read_document first).symm.trans (read_document second)
    exact Except.ok.inj same
  constructor
  · rintro ⟨line, goes⟩
    have answer := read_goesOn goes
    refine ⟨not_accepted_of_error answer, ?_, fun unfinished => goes.not_extendable unfinished.2⟩
    rintro ⟨place, closed⟩
    rw [read_beginsClosed closed] at answer
    cases answer
  · rintro ⟨refused, opened, finished⟩
    rcases outcome text with accepted | closed | goes | ⟨_, extendable⟩
    · exact absurd accepted refused
    · exact absurd closed opened
    · exact goes
    · exact absurd ⟨refused, extendable⟩ finished

end CopperTidy.SExpr
