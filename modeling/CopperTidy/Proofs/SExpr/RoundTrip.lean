import CopperTidy.SExpr.Grammar
import CopperTidy.SExpr.Normal
import CopperTidy.SExpr.Reader

/-! # Reading what was printed

A printed expression is split into the lexemes of its items, whatever blanks stand between them,
and the reader puts these together again. What comes back is the normal form of the expression.
-/

namespace CopperTidy.SExpr
set_option autoImplicit false

/-! ## Scanning -/

/-- The lexemes of `cs` up to `rest`, wherever in a document the text stands. -/
def Scans (cs : List Char) (lexemes : List Lexeme) (rest : List Char) : Prop :=
  ∀ p, ∃ tokens q, Token.scanFrom .nothing p cs = tokens ++ Token.scanFrom .nothing q rest ∧
    tokens.map (·.lexeme) = lexemes

/-- Can `rest` follow a bare symbol? -/
def Stops (rest : List Char) : Prop := ∀ c ∈ rest.head?, isSymbolChar c = false

theorem Scans.refl (cs : List Char) : Scans cs [] cs := fun p => ⟨[], p, rfl, rfl⟩

theorem Scans.trans {cs ds rest : List Char} {ls ms : List Lexeme} (first : Scans cs ls ds)
    (second : Scans ds ms rest) : Scans cs (ls ++ ms) rest := by
  intro p
  obtain ⟨tokens, q, eq, lexemes⟩ := first p
  obtain ⟨more, r, eq', lexemes'⟩ := second q
  refine ⟨tokens ++ more, r, ?_, ?_⟩
  · rw [eq, eq', List.append_assoc]
  · rw [List.map_append, lexemes, lexemes']

theorem stops_cons {c : Char} {rest : List Char} (h : isSymbolChar c = false) : Stops (c :: rest) := by
  intro d mem
  simp only [List.head?_cons, Option.mem_some_iff] at mem
  rw [← mem, h]

theorem begin_blank {p : Place} {c : Char} (h : Text.isBlank c = true) :
    Token.begin p c = ([], .nothing) := by
  have opening : c ≠ '(' := by rintro rfl; exact absurd h (by decide)
  have closing : c ≠ ')' := by rintro rfl; exact absurd h (by decide)
  have mark : c ≠ '"' := by rintro rfl; exact absurd h (by decide)
  simp only [Token.begin, opening, closing, mark, h, if_false, if_true]

theorem begin_symbol {p : Place} {c : Char} (h : isSymbolChar c = true) :
    Token.begin p c = ([], .symbol [c] p) := by
  simp only [isSymbolChar, isDelimiter, Bool.and_eq_true, Bool.not_eq_true', Bool.or_eq_false_iff,
    beq_eq_false_iff_ne] at h
  obtain ⟨blank, ⟨opening, closing⟩, mark⟩ := h
  simp only [Token.begin, opening, closing, mark, blank, if_false, Bool.false_eq_true]

theorem scans_blank {c : Char} (h : Text.isBlank c = true) (cs : List Char) :
    Scans (c :: cs) [] cs := by
  intro p
  refine ⟨[], p.after c, ?_, rfl⟩
  rw [Token.scanFrom, Token.step, begin_blank h]

theorem scans_blanks {gap : List Char} (h : ∀ c ∈ gap, Text.isBlank c = true) (cs : List Char) :
    Scans (gap ++ cs) [] cs := by
  induction gap with
  | nil => exact .refl cs
  | cons c gap ih =>
    have first := scans_blank (h c List.mem_cons_self) (gap ++ cs)
    exact first.trans (ih fun d mem => h d (List.mem_cons_of_mem c mem))

theorem scans_opening (cs : List Char) : Scans ('(' :: cs) [.opening] cs :=
  fun p => ⟨[⟨.opening, p⟩], p.after '(', rfl, rfl⟩

theorem scans_closing (cs : List Char) : Scans (')' :: cs) [.closing] cs :=
  fun p => ⟨[⟨.closing, p⟩], p.after ')', rfl, rfl⟩

/-! ## Symbols and strings -/

/-- The place after a text. -/
def Place.past (p : Place) (cs : List Char) : Place := cs.foldl Place.after p

theorem scanFrom_symbol (s collected rest : List Char) (start p : Place)
    (symbols : ∀ c ∈ s, isSymbolChar c = true) (stops : Stops rest) :
    Token.scanFrom (.symbol collected start) p (s ++ rest) =
      Token.ofSymbol (s.reverse ++ collected) start ::
        Token.scanFrom .nothing (p.past s) rest := by
  induction s generalizing collected p with
  | nil =>
    cases rest with
    | nil => rfl
    | cons c rest =>
      have stop := stops c rfl
      simp only [List.nil_append, List.reverse_nil, Token.scanFrom, Token.step, stop,
        Bool.false_eq_true, if_false, List.cons_append, Place.past, List.foldl_nil]
  | cons c s ih =>
    have symbol := symbols c List.mem_cons_self
    have more := ih (c :: collected) (p.after c) fun d mem => symbols d (List.mem_cons_of_mem c mem)
    simp only [List.cons_append, Token.scanFrom, Token.step, symbol, if_true, List.nil_append, more]
    simp only [List.reverse_cons, List.append_assoc, List.cons_append, List.nil_append, Place.past,
      List.foldl_cons]

/-- A symbol is taken up to where it stops. -/
theorem scan_symbol {s : List Char} (nonempty : s ≠ []) (symbols : ∀ c ∈ s, isSymbolChar c = true)
    {rest : List Char} (stops : Stops rest) (p : Place) :
    Token.scanFrom .nothing p (s ++ rest) =
      ⟨.symbol (String.ofList s), p⟩ :: Token.scanFrom .nothing (p.past s) rest := by
  cases s with
  | nil => exact absurd rfl nonempty
  | cons c s =>
    have more := scanFrom_symbol s [c] rest p (p.after c)
      (fun d mem => symbols d (List.mem_cons_of_mem c mem)) stops
    rw [List.cons_append, Token.scanFrom, Token.step, begin_symbol (symbols c List.mem_cons_self)]
    simpa [Token.ofSymbol, Place.past] using more

theorem scans_symbol {s rest : List Char} (bare : isBare s = true) (stops : Stops rest) :
    Scans (s ++ rest) [.symbol (String.ofList s)] rest := by
  intro p
  rw [isBare, Bool.and_eq_true, List.all_eq_true] at bare
  obtain ⟨nonempty, all⟩ := bare
  have symbols : ∀ c ∈ s, isSymbolChar c = true := fun c mem => (Bool.and_eq_true_iff.mp (all c mem)).1
  have nonempty : s ≠ [] := by simpa using nonempty
  exact ⟨[⟨.symbol (String.ofList s), p⟩], p.past s, scan_symbol nonempty symbols stops p, rfl⟩

/-- What stands between quotes is collected. -/
theorem scanFrom_string {cs s : List Char} (h : SpellsString cs s) (collected rest : List Char)
    (start p : Place) :
    Token.scanFrom (.quoted collected start) p (cs ++ rest) =
      Token.scanFrom (.quoted (s.reverse ++ collected) start) (p.past cs) rest := by
  induction h generalizing collected p with
  | nil => rfl
  | @plain c cs s quote backslash _ ih =>
    simp only [List.cons_append, Token.scanFrom, Token.step, quote, backslash, if_false,
      List.nil_append, ih]
    simp only [List.reverse_cons, List.append_assoc, List.cons_append, List.nil_append, Place.past,
      List.foldl_cons]
  | @escaped c cs s _ ih =>
    have mark : ('\\' : Char) ≠ '"' := by decide
    simp only [List.cons_append, Token.scanFrom, Token.step, mark, if_false, if_true,
      List.nil_append, ih]
    simp only [List.reverse_cons, List.append_assoc, List.cons_append, List.nil_append, Place.past,
      List.foldl_cons]

theorem scan_string {cs s : List Char} (h : SpellsString cs s) (rest : List Char) (p : Place) :
    Token.scanFrom .nothing p ('"' :: (cs ++ '"' :: rest)) =
      ⟨.quoted (String.ofList s), p⟩ ::
        Token.scanFrom .nothing (p.past ('"' :: (cs ++ ['"']))) rest := by
  have inside := scanFrom_string h [] ('"' :: rest) p (p.after '"')
  rw [Token.scanFrom, show Token.step .nothing p '"' = ([], .quoted [] p) from rfl]
  simp only [List.nil_append, inside]
  simp [Token.scanFrom, Token.step, Token.ofQuoted, Place.past]

theorem spellsString_escape (c : Char) {cs s : List Char} (h : SpellsString cs s) :
    SpellsString (escape c ++ cs) (c :: s) := by
  unfold escape
  cases letter : escapeLetter? c with
  | none =>
    have mark : c ≠ '"' := by rintro rfl; exact absurd letter (by decide)
    have backslash : c ≠ '\\' := by rintro rfl; exact absurd letter (by decide)
    exact .plain mark backslash h
  | some l =>
    have spelled := SpellsString.escaped (c := l) h
    rwa [unescape_escapeLetter letter] at spelled

theorem spellsString_flatMap (s : List Char) : SpellsString (s.flatMap escape) s := by
  induction s with
  | nil => exact .nil
  | cons c s ih => exact spellsString_escape c ih

theorem scans_quote (s rest : List Char) :
    Scans (quote s ++ rest) [.quoted (String.ofList s)] rest := by
  intro p
  have eq := scan_string (spellsString_flatMap s) rest p
  refine ⟨[⟨.quoted (String.ofList s), p⟩], p.past (quote s), ?_, rfl⟩
  simpa [quote] using eq

/-! ## Expressions -/

mutual

/-- The lexemes of a printed expression. -/
def lexemes : SExpr → List Lexeme
  | .atom s => [if isBare s.toList then .symbol s else .quoted s]
  | .quoted s => [.quoted s]
  | .list items => .opening :: lexemesOf items ++ [.closing]

def lexemesOf : List SExpr → List Lexeme
  | [] => []
  | e :: rest => lexemes e ++ lexemesOf rest

end

theorem scans_atom (s : String) {rest : List Char} (stops : Stops rest) :
    Scans (symbol s ++ rest) (lexemes (.atom s)) rest := by
  unfold symbol lexemes
  split
  · next bare =>
    have scans := scans_symbol bare stops
    rwa [String.ofList_toList] at scans
  · have scans := scans_quote s.toList rest
    rwa [String.ofList_toList] at scans

theorem isBlank_newline : Text.isBlank '\n' = true := by decide

theorem isBlank_space : Text.isBlank ' ' = true := by decide

theorem isSymbolChar_blank {c : Char} (h : Text.isBlank c = true) : isSymbolChar c = false := by
  simp [isSymbolChar, h]

theorem isBlank_of_mem_line {depth : Nat} {c : Char} (h : c ∈ '\n' :: indent depth) :
    Text.isBlank c = true := by
  rcases List.mem_cons.mp h with rfl | inside
  · exact isBlank_newline
  · rw [(List.mem_replicate.mp inside).2]
    exact isBlank_space

theorem isBlank_of_mem_separator {depth : Nat} {first : Bool} {e : SExpr} {c : Char}
    (h : c ∈ separator depth first e) : Text.isBlank c = true := by
  unfold separator at h
  split at h
  · exact isBlank_of_mem_line h
  split at h
  · cases h
  · rw [List.mem_singleton.mp h]
    exact isBlank_space

theorem scans_separator (depth : Nat) (first : Bool) (e : SExpr) (cs : List Char) :
    Scans (separator depth first e ++ cs) [] cs :=
  scans_blanks (fun _ mem => isBlank_of_mem_separator mem) cs

theorem stops_separator (depth : Nat) (e : SExpr) (rest : List Char) :
    Stops (separator depth false e ++ rest) := by
  unfold separator
  split
  · exact stops_cons (isSymbolChar_blank isBlank_newline)
  · exact stops_cons (isSymbolChar_blank isBlank_space)

theorem isBlank_of_mem_ending {depth : Nat} {items : List SExpr} {c : Char}
    (h : c ∈ ending depth items) : Text.isBlank c = true := by
  unfold ending at h
  split at h
  · exact isBlank_of_mem_line h
  · cases h

theorem scans_ending (depth : Nat) (items : List SExpr) (rest : List Char) :
    Scans (ending depth items ++ ')' :: rest) [.closing] rest := by
  have blanks : Scans (ending depth items ++ ')' :: rest) [] (')' :: rest) :=
    scans_blanks (fun _ mem => isBlank_of_mem_ending mem) _
  exact blanks.trans (scans_closing rest)

theorem stops_ending (depth : Nat) (items : List SExpr) (rest : List Char) :
    Stops (ending depth items ++ ')' :: rest) := by
  unfold ending
  split
  · exact stops_cons (isSymbolChar_blank isBlank_newline)
  · exact stops_cons (by decide)

theorem stops_prettyItems (depth : Nat) {rest : List Char} (stops : Stops rest)
    (items : List SExpr) : Stops (prettyItems depth false rest items) := by
  cases items with
  | nil => exact stops
  | cons e items => exact stops_separator depth e _

mutual

theorem scans_pretty (depth : Nat) {rest : List Char} (stops : Stops rest) :
    (e : SExpr) → Scans (pretty depth rest e) (lexemes e) rest
  | .atom s => scans_atom s stops
  | .quoted s => by
    have scans := scans_quote s.toList rest
    rwa [String.ofList_toList] at scans
  | .list items => by
    have inside := scans_prettyItems depth true (stops_ending depth items rest) items
    exact (scans_opening _).trans (inside.trans (scans_ending depth items rest))

theorem scans_prettyItems (depth : Nat) (first : Bool) {rest : List Char} (stops : Stops rest) :
    (items : List SExpr) → Scans (prettyItems depth first rest items) (lexemesOf items) rest
  | [] => .refl rest
  | e :: items => by
    have item := scans_pretty (depth + 1) (stops_prettyItems depth stops items) e
    have more := scans_prettyItems depth false stops items
    exact (scans_separator depth first e _).trans (item.trans more)

end

mutual

theorem scans_flat {rest : List Char} (stops : Stops rest) :
    (e : SExpr) → Scans (flat rest e) (lexemes e) rest
  | .atom s => scans_atom s stops
  | .quoted s => by
    have scans := scans_quote s.toList rest
    rwa [String.ofList_toList] at scans
  | .list items => by
    have stop : Stops (')' :: rest) := stops_cons (by decide)
    have inside := scans_flatItems stop items
    exact (scans_opening _).trans (inside.trans (scans_closing rest))

theorem scans_flatItems {rest : List Char} (stops : Stops rest) :
    (items : List SExpr) → Scans (flatItems rest items) (lexemesOf items) rest
  | [] => .refl rest
  | [e] => by
    rw [flatItems, lexemesOf, lexemesOf, List.append_nil]
    exact scans_flat stops e
  | e :: f :: more => by
    have stop : Stops (' ' :: flatItems rest (f :: more)) :=
      stops_cons (isSymbolChar_blank isBlank_space)
    have gap := scans_blank isBlank_space (flatItems rest (f :: more))
    exact (scans_flat stop e).trans (gap.trans (scans_flatItems stops (f :: more)))

end

/-! ## Putting lexemes together -/

/-- How the reader goes on when an expression is complete. -/
def resume (next : SExpr ⊕ Open) (more : List Token) : Except ReadError (SExpr × List Token) :=
  match next with
  | .inl root => .ok (root, more)
  | .inr lists => readFirst lists more

theorem readFirst_cons {token : Token} {lists : Open} {next : SExpr ⊕ Open} (more : List Token)
    (h : take token lists = .ok next) : readFirst lists (token :: more) = resume next more := by
  rw [readFirst, h]
  cases next <;> rfl

mutual

theorem readFirst_lexemes (lists : Open) (more : List Token) :
    (e : SExpr) → (tokens : List Token) → tokens.map (·.lexeme) = lexemes e →
      readFirst lists (tokens ++ more) = resume (deliver (normal e) lists) more
  | .atom s, tokens, spelled => by
    obtain ⟨token, rfl, lexeme⟩ := List.map_eq_singleton_iff.mp spelled
    refine readFirst_cons more ?_
    simp only [take, lexeme, normal]
    by_cases bare : isBare s.toList = true
    · rw [if_pos bare, if_pos bare]
    · rw [if_neg bare, if_neg bare]
  | .quoted s, tokens, spelled => by
    obtain ⟨token, rfl, lexeme⟩ := List.map_eq_singleton_iff.mp spelled
    refine readFirst_cons more ?_
    simp only [take, lexeme, normal]
  | .list items, tokens, spelled => by
    rw [lexemes, List.cons_append] at spelled
    obtain ⟨opening, others, rfl, opens, spelled⟩ := List.map_eq_cons_iff.mp spelled
    obtain ⟨inside, last, rfl, inner, outer⟩ := List.map_eq_append_iff.mp spelled
    obtain ⟨closing, rfl, closes⟩ := List.map_eq_singleton_iff.mp outer
    have opened : take opening lists = .ok (.inr ([] :: lists)) := by simp only [take, opens]
    have closed (done : List SExpr) :
        take closing (done :: lists) = .ok (deliver (.list done.reverse) lists) := by
      simp only [take, closes]
    rw [List.cons_append, readFirst_cons _ opened, resume, List.append_assoc,
      readFirst_lexemesOf lists [] _ items inside inner, List.append_nil]
    rw [List.cons_append, List.nil_append, readFirst_cons more (closed _), List.reverse_reverse,
      normal]

theorem readFirst_lexemesOf (lists : Open) (done : List SExpr) (more : List Token) :
    (items : List SExpr) → (tokens : List Token) → tokens.map (·.lexeme) = lexemesOf items →
      readFirst (done :: lists) (tokens ++ more) =
        readFirst (((normalItems items).reverse ++ done) :: lists) more
  | [], tokens, spelled => by
    rw [List.map_eq_nil_iff.mp spelled]
    rfl
  | e :: items, tokens, spelled => by
    obtain ⟨here, others, rfl, first, rest⟩ := List.map_eq_append_iff.mp spelled
    rw [List.append_assoc, readFirst_lexemes _ _ e here first, deliver, resume,
      readFirst_lexemesOf lists _ more items others rest, normalItems, List.reverse_cons,
      List.append_assoc, List.cons_append, List.nil_append]

end

/-- A text with the lexemes of `e` reads as the normal form of `e`. -/
theorem read_of_scans {cs : List Char} {e : SExpr} (h : Scans cs (lexemes e) []) :
    SExpr.read (String.ofList cs) = .ok (normal e) := by
  obtain ⟨tokens, q, eq, spelled⟩ := h {}
  have first := readFirst_lexemes [] (Token.scanFrom .nothing q []) e tokens spelled
  rw [SExpr.read, String.toList_ofList, Token.scan, eq, ofTokens, first]
  rfl

theorem scans_toText (e : SExpr) : Scans (e.flat []) (lexemes e) [] :=
  scans_flat (fun _ mem => by cases mem) e

theorem scans_toPrettyText (e : SExpr) : Scans (e.pretty 0 ['\n']) (lexemes e) [] := by
  have newline := scans_blank isBlank_newline []
  have stops : Stops ['\n'] := stops_cons (isSymbolChar_blank isBlank_newline)
  have whole := (scans_pretty 0 stops e).trans newline
  rwa [List.append_nil] at whole

/-- Printed on one line and read again, an expression is in normal form. -/
theorem read_toText (e : SExpr) : SExpr.read e.toText = .ok (normal e) :=
  read_of_scans (scans_toText e)

/-- Printed with indentation and read again, an expression is in normal form. -/
theorem read_toPrettyText (e : SExpr) : SExpr.read e.toPrettyText = .ok (normal e) :=
  read_of_scans (scans_toPrettyText e)

end CopperTidy.SExpr
