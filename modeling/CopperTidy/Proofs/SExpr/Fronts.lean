import CopperTidy.Proofs.SExpr.RoundTrip

/-! # What a text begins with

After blanks a text begins with a closing parenthesis, with a whole expression, with an expression
that breaks off, or with nothing: `front`. This is a fact about the grammar alone.
-/

namespace CopperTidy.SExpr
set_option autoImplicit false

/-! ## The text of an expression -/

variable {cs ds rest gap : List Char} {s : List Char} {e : SExpr} {items : List SExpr}

theorem SpellsString.append {t : List Char} (first : SpellsString cs s)
    (second : SpellsString ds t) : SpellsString (cs ++ ds) (s ++ t) := by
  induction first with
  | nil => exact second
  | plain quote backslash _ ih => exact .plain quote backslash ih
  | escaped _ ih => exact .escaped ih

theorem stops_nil : Stops [] := by simp [Stops]

theorem ends_of_stops (stops : Stops rest) : Ends rest e := by
  cases e with
  | atom => exact stops
  | quoted | list => trivial

/-- Only the first character after an expression matters. -/
theorem ends_append_iff (nonempty : cs ≠ []) : Ends (cs ++ rest) e ↔ Ends cs e := by
  cases cs with
  | nil => exact absurd rfl nonempty
  | cons c cs => cases e <;> exact Iff.rfl

theorem Ends.append (ends : Ends cs e) (stops : Stops rest) : Ends (cs ++ rest) e := by
  by_cases empty : cs = []
  · rw [empty]
    exact ends_of_stops stops
  · exact (ends_append_iff empty).mpr ends

theorem Ends.of_append (ends : Ends (cs ++ rest) e) : Ends cs e := by
  by_cases empty : cs = []
  · rw [empty]
    exact ends_of_stops stops_nil
  · exact (ends_append_iff empty).mp ends

theorem isGap_nil : IsGap [] := by simp [IsGap]

theorem stops_gap (blank : IsGap gap) : Stops gap := by
  cases gap with
  | nil => exact stops_nil
  | cons c gap => exact stops_cons (isSymbolChar_blank (blank c List.mem_cons_self))

theorem isGap_cons {c : Char} (blank : Text.isBlank c = true) (more : IsGap gap) :
    IsGap (c :: gap) := List.forall_mem_cons.mpr ⟨blank, more⟩

/-- One more item at the end, if nothing there runs into it. -/
theorem SpellsItems.snoc (h : SpellsItems cs items) (stops : Stops ds) (last : Spells ds e) :
    SpellsItems (cs ++ ds) (items ++ [e]) := by
  induction items generalizing cs with
  | nil =>
    cases h with
    | nil blank =>
      have one := SpellsItems.cons blank last (ends_of_stops stops_nil) (.nil isGap_nil)
      rwa [List.append_nil] at one
  | cons f items ih =>
    cases h with
    | cons blank first ends more =>
      have longer := SpellsItems.cons blank first (ends.append stops) (ih more)
      rwa [← List.append_assoc] at longer

/-- A text that begins with an expression and ends before it is over. -/
inductive BreaksOff : List Char → Prop
  | string {cs s : List Char} (inner : SpellsString cs s) : BreaksOff ('"' :: cs)
  | escape {cs s : List Char} (inner : SpellsString cs s) : BreaksOff ('"' :: (cs ++ ['\\']))
  | list {cs : List Char} {items : List SExpr} (inner : SpellsItems cs items) :
      BreaksOff ('(' :: cs)
  | item {cs ds : List Char} {items : List SExpr} (inner : SpellsItems cs items)
      (last : BreaksOff ds) : BreaksOff ('(' :: (cs ++ ds))

theorem BreaksOff.stops (h : BreaksOff cs) : Stops (cs ++ rest) := by
  cases h with
  | string | escape => exact stops_cons (by decide)
  | list | item => exact stops_cons (by decide)

/-- It can be completed. -/
theorem BreaksOff.completed (h : BreaksOff cs) : ∃ more e, Spells (cs ++ more) e := by
  induction h with
  | string inner => exact ⟨['"'], _, .quoted inner⟩
  | @escape cs s inner =>
    have letter : SpellsString ['\\', 'n'] ['\n'] := .escaped .nil
    have spells := Spells.quoted (inner.append letter)
    exact ⟨['n', '"'], .quoted (String.ofList (s ++ ['\n'])), by simpa using spells⟩
  | list inner => exact ⟨[')'], _, .list inner⟩
  | @item cs ds items inner last ih =>
    obtain ⟨more, e, spells⟩ := ih
    have whole := Spells.list (inner.snoc last.stops spells)
    exact ⟨more ++ [')'], .list (items ++ [e]), by simpa using whole⟩

/-! ## What a text begins with -/

/-- A text inside of a string. -/
inductive InString : List Char → Prop
  | closed {cs s rest : List Char} (inner : SpellsString cs s) : InString (cs ++ '"' :: rest)
  | unclosed {cs s : List Char} (inner : SpellsString cs s) : InString cs
  | escape {cs s : List Char} (inner : SpellsString cs s) : InString (cs ++ ['\\'])

/-- A text outside of any expression. -/
inductive Front : List Char → Prop
  | nothing {gap : List Char} (blank : IsGap gap) : Front gap
  | closing {gap rest : List Char} (blank : IsGap gap) : Front (gap ++ ')' :: rest)
  | whole {gap cs rest : List Char} {e : SExpr} (blank : IsGap gap) (spells : Spells cs e)
      (ends : Ends rest e) : Front (gap ++ cs ++ rest)
  | broken {gap cs : List Char} (blank : IsGap gap) (breaks : BreaksOff cs) : Front (gap ++ cs)

/-- A text inside of a list. -/
inductive Inside : List Char → Prop
  | closed {cs rest : List Char} {items : List SExpr} (inner : SpellsItems cs items) :
      Inside (cs ++ ')' :: rest)
  | unclosed {cs : List Char} {items : List SExpr} (inner : SpellsItems cs items) : Inside cs
  | broken {cs ds : List Char} {items : List SExpr} (inner : SpellsItems cs items)
      (breaks : BreaksOff ds) : Inside (cs ++ ds)

theorem Front.blank {c : Char} (h : Front cs) (blank : Text.isBlank c = true) :
    Front (c :: cs) := by
  cases h with
  | nothing gap => exact .nothing (isGap_cons blank gap)
  | closing gap => exact .closing (isGap_cons blank gap)
  | whole gap spells ends => exact .whole (isGap_cons blank gap) spells ends
  | broken gap breaks => exact .broken (isGap_cons blank gap) breaks

theorem Front.here (spells : Spells cs e) (ends : Ends rest e) : Front (cs ++ rest) :=
  Front.whole isGap_nil spells ends

theorem Front.breaking (breaks : BreaksOff cs) : Front cs :=
  Front.broken isGap_nil breaks

/-- After a first item the rest of the list is as if nothing had been before it. -/
theorem Inside.item (h : Inside rest) (blank : IsGap gap) (spells : Spells cs e)
    (ends : Ends rest e) : Inside (gap ++ cs ++ rest) := by
  cases h with
  | closed inner =>
    have more := SpellsItems.cons blank spells ends.of_append inner
    rw [← List.append_assoc]
    exact .closed more
  | unclosed inner => exact .unclosed (.cons blank spells ends inner)
  | broken inner breaks =>
    have more := SpellsItems.cons blank spells ends.of_append inner
    rw [← List.append_assoc]
    exact .broken more breaks

theorem InString.plain {c : Char} (h : InString cs) (quote : c ≠ '"') (backslash : c ≠ '\\') :
    InString (c :: cs) := by
  cases h with
  | closed inner => exact .closed (.plain quote backslash inner)
  | unclosed inner => exact .unclosed (.plain quote backslash inner)
  | escape inner => exact .escape (.plain quote backslash inner)

theorem InString.escaped (c : Char) (h : InString cs) : InString ('\\' :: c :: cs) := by
  cases h with
  | closed inner => exact .closed (.escaped inner)
  | unclosed inner => exact .unclosed (.escaped inner)
  | escape inner => exact .escape (.escaped inner)

theorem inString : (cs : List Char) → InString cs
  | [] => .unclosed .nil
  | [c] => by
    by_cases quote : c = '"'
    · rw [quote]
      exact .closed .nil
    by_cases backslash : c = '\\'
    · rw [backslash]
      exact .escape .nil
    · exact .unclosed (.plain quote backslash .nil)
  | c :: d :: cs => by
    by_cases quote : c = '"'
    · rw [quote]
      exact .closed .nil
    by_cases backslash : c = '\\'
    · rw [backslash]
      exact (inString cs).escaped d
    · exact (inString (d :: cs)).plain quote backslash

theorem front_string (h : InString cs) : Front ('"' :: cs) := by
  cases h with
  | @closed inner s rest spelled =>
    have front : Front ('"' :: inner ++ ['"'] ++ rest) := .here (.quoted spelled) trivial
    simpa using front
  | unclosed spelled => exact .breaking (.string spelled)
  | escape spelled => exact .breaking (.escape spelled)

theorem front_list (h : Inside cs) : Front ('(' :: cs) := by
  cases h with
  | @closed inner rest items spelled =>
    have front : Front ('(' :: inner ++ [')'] ++ rest) := .here (.list spelled) trivial
    simpa using front
  | unclosed spelled => exact .breaking (.list spelled)
  | broken spelled breaks => exact .breaking (.item spelled breaks)

theorem front_symbol {c : Char} (symbol : isSymbolChar c = true) (cs : List Char) :
    Front (c :: cs) := by
  have symbols : ∀ d ∈ (c :: cs).takeWhile isSymbolChar, isSymbolChar d = true :=
    List.all_eq_true.mp List.all_takeWhile
  have nonempty : (c :: cs).takeWhile isSymbolChar ≠ [] := by
    rw [List.takeWhile_cons_of_pos symbol]
    exact List.cons_ne_nil _ _
  have stops : Stops ((c :: cs).dropWhile isSymbolChar) := by
    intro d first
    have past := List.head?_dropWhile_not isSymbolChar (c :: cs)
    rwa [Option.mem_def.mp first] at past
  have front := Front.here (.atom nonempty symbols) (ends_of_stops stops)
  rwa [List.takeWhile_append_dropWhile] at front

/-- By induction on the length: what is in a list is looked at item by item, and an item is shorter
than what it begins. -/
theorem front_inside (n : Nat) (cs : List Char) (le : cs.length ≤ n) : Front cs ∧ Inside cs := by
  induction n generalizing cs with
  | zero =>
    rw [List.length_eq_zero_iff.mp (Nat.le_zero.mp le)]
    exact ⟨.nothing isGap_nil, .unclosed (.nil isGap_nil)⟩
  | succ n ih =>
    have front : Front cs := by
      cases cs with
      | nil => exact .nothing isGap_nil
      | cons c cs =>
        obtain ⟨front, inside⟩ := ih cs (Nat.le_of_succ_le_succ le)
        by_cases blank : Text.isBlank c = true
        · exact front.blank blank
        by_cases opening : c = '('
        · rw [opening]
          exact front_list inside
        by_cases closing : c = ')'
        · rw [closing]
          exact Front.closing isGap_nil
        by_cases mark : c = '"'
        · rw [mark]
          exact front_string (inString cs)
        · refine front_symbol ?_ cs
          simp [isSymbolChar, isDelimiter, blank, opening, closing, mark]
    refine ⟨front, ?_⟩
    cases front with
    | nothing blank => exact .unclosed (.nil blank)
    | closing blank => exact .closed (.nil blank)
    | @whole gap cs rest e blank spells ends =>
      have shorter : rest.length ≤ n := by
        have := List.length_pos_iff.mpr spells.ne_nil
        simp only [List.length_append] at le
        omega
      exact (ih rest shorter).2.item blank spells ends
    | broken blank breaks => exact .broken (.nil blank) breaks

theorem front (cs : List Char) : Front cs := (front_inside cs.length cs (Nat.le_refl _)).1

end CopperTidy.SExpr
