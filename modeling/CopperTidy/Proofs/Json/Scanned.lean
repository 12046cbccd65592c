import CopperTidy.Json.Reader
import CopperTidy.Json.Writer
import CopperTidy.Proofs.Decimal.Places

/-! # Scanning what was written

The compact text of a value is split into the tokens that its parts stand for. A number or a word is
taken as long as it goes, so something must follow that stops it; in a compact text that is a comma,
a closing bracket or the end.
-/

namespace CopperTidy
set_option autoImplicit false

/-- Only the number zero is written with a leading zero. -/
theorem Text.eq_zero_of_head?_natural {n : Nat} (zero : (natural n).head? = some '0') : n = 0 := by
  have digit : ∀ d < 10, Nat.digitChar d = '0' → d = 0 := by decide
  induction n using Nat.strongRecOn with
  | _ n ih =>
    by_cases small : n < 10
    · rw [natural, Nat.toDigits_of_lt_base small, List.head?_cons, Option.some.injEq] at zero
      exact digit n small zero
    · have fewer : n / 10 < n := by omega
      have front : natural (n / 10) ≠ [] := Nat.toDigits_ne_nil
      have split : natural n = natural (n / 10) ++ [Nat.digitChar (n % 10)] :=
        Nat.toDigits_of_base_le (by omega) (by omega)
      rw [split, List.head?_append, List.head?_eq_some_head front, Option.some_or] at zero
      have := ih (n / 10) fewer ((List.head?_eq_some_head front).trans zero)
      omega

namespace Json

/-! ## Tokens of a text and what is left of it -/

/-- `cs` begins with the tokens, and `rest` is left. -/
def Scans (cs : List Char) (tokens : List Token) (rest : List Char) : Prop :=
  Token.scanFrom .nothing cs = (Token.scanFrom .nothing rest).map (tokens ++ ·)

/-- Does `rest` stop a number and a word? -/
def Stops (rest : List Char) : Prop :=
  ∀ c ∈ rest.head?, isNumberChar c = false ∧ isWordChar c = false

theorem Scans.trans {cs ds rest : List Char} {tokens more : List Token} (first : Scans cs tokens ds)
    (second : Scans ds more rest) : Scans cs (tokens ++ more) rest := by
  rw [Scans, first, second, Option.map_map]
  simp only [Function.comp_def, List.append_assoc]

theorem stops_cons {c : Char} {rest : List Char} (number : isNumberChar c = false)
    (word : isWordChar c = false) : Stops (c :: rest) := by
  intro d first
  rw [List.head?_cons, Option.mem_some_iff] at first
  exact first ▸ ⟨number, word⟩

theorem stops_comma (rest : List Char) : Stops (',' :: rest) := stops_cons (by decide) (by decide)

theorem stops_closeList (rest : List Char) : Stops (']' :: rest) :=
  stops_cons (by decide) (by decide)

theorem stops_closeObject (rest : List Char) : Stops ('}' :: rest) :=
  stops_cons (by decide) (by decide)

theorem scans_openList (rest : List Char) : Scans ('[' :: rest) [.openList] rest := rfl

theorem scans_closeList (rest : List Char) : Scans (']' :: rest) [.closeList] rest := rfl

theorem scans_openObject (rest : List Char) : Scans ('{' :: rest) [.openObject] rest := rfl

theorem scans_closeObject (rest : List Char) : Scans ('}' :: rest) [.closeObject] rest := rfl

theorem scans_comma (rest : List Char) : Scans (',' :: rest) [.comma] rest := rfl

theorem scans_colon (rest : List Char) : Scans (':' :: rest) [.colon] rest := rfl

/-! ## Words and numbers -/

/-- A character that completes no token. -/
theorem scanFrom_quiet {pending after : Pending} {c : Char} {rest : List Char}
    (quiet : Token.step pending c = some ([], after)) :
    Token.scanFrom pending (c :: rest) = Token.scanFrom after rest := by
  rw [Token.scanFrom, quiet]
  simp only [List.nil_append, Option.map_id']

/-- What is pending is completed by the end of the text or by the next character, which then begins
something of its own. -/
theorem scanFrom_stopped {pending : Pending} {rest : List Char} {token : Token}
    (last : Token.finish pending = some [token])
    (stop : ∀ c ∈ rest.head?, Token.step pending c = Token.next (some token) c) :
    Token.scanFrom pending rest = (Token.scanFrom .nothing rest).map ([token] ++ ·) := by
  cases rest with
  | nil => exact last
  | cons c rest =>
    rw [Token.scanFrom, stop c rfl, Token.scanFrom, Token.step, Token.next]
    cases Token.begin c with
    | none => rfl
    | some begun => simp [Function.comp_def]

theorem scanFrom_collected (hold : List Char → Pending) {cs : List Char}
    (keeps : ∀ collected, ∀ c ∈ cs,
      Token.step (hold collected) c = some ([], hold (c :: collected)))
    (collected rest : List Char) :
    Token.scanFrom (hold collected) (cs ++ rest) =
      Token.scanFrom (hold (cs.reverse ++ collected)) rest := by
  induction cs generalizing collected with
  | nil => rfl
  | cons c cs ih =>
    have more := ih fun collected d mem => keeps collected d (List.mem_cons_of_mem c mem)
    rw [List.cons_append, scanFrom_quiet (keeps collected c List.mem_cons_self), more,
      List.reverse_cons, List.append_assoc]
    rfl

/-- A run of characters that are collected until something else follows. -/
theorem scans_collected (hold : List Char → Pending) {w rest : List Char} {token : Token}
    (begins : ∃ c cs, w = c :: cs ∧ Token.begin c = some ([], hold [c]))
    (keeps : ∀ collected, ∀ c ∈ w,
      Token.step (hold collected) c = some ([], hold (c :: collected)))
    (last : Token.finish (hold w.reverse) = some [token])
    (stop : ∀ c ∈ rest.head?, Token.step (hold w.reverse) c = Token.next (some token) c) :
    Scans (w ++ rest) [token] rest := by
  obtain ⟨c, cs, rfl, begun⟩ := begins
  have first : Token.step .nothing c = some ([], hold [c]) := begun
  have inside := scanFrom_collected hold
    (fun collected d mem => keeps collected d (List.mem_cons_of_mem c mem)) [c] rest
  rw [Scans, List.cons_append, scanFrom_quiet first, inside, ← List.reverse_cons]
  exact scanFrom_stopped last stop

/-- The characters that stand for themselves, or between tokens. -/
def separators : List Char := [' ', '\n', '\t', '\r', '[', ']', '{', '}', ',', ':', '"']

/-- A character of a range without separators begins a word or a number, if anything. -/
theorem begin_of_apart {low high : Nat} {c : Char} (within : low ≤ c.toNat ∧ c.toNat ≤ high)
    (apart : (separators.all fun d => d.toNat < low || high < d.toNat) = true) :
    Token.begin c = if isWordChar c then some ([], .word [c])
      else if isNumberChar c then some ([], .number [c]) else none := by
  have other {d : Char} (mem : d ∈ separators) : c ≠ d := by
    rintro rfl
    have outside := List.all_eq_true.mp apart c mem
    simp only [Bool.or_eq_true, decide_eq_true_eq] at outside
    omega
  simp only [Token.begin, other (d := ' ') (by decide), other (d := '\n') (by decide),
    other (d := '\t') (by decide), other (d := '\r') (by decide), other (d := '[') (by decide),
    other (d := ']') (by decide), other (d := '{') (by decide), other (d := '}') (by decide),
    other (d := ',') (by decide), other (d := ':') (by decide), other (d := '"') (by decide),
    decide_false, Bool.or_self, Bool.false_eq_true, if_false]

theorem begin_word {c : Char} (letter : isWordChar c = true) :
    Token.begin c = some ([], .word [c]) := by
  have within : 97 ≤ c.toNat ∧ c.toNat ≤ 122 := by simpa [isWordChar] using letter
  rw [begin_of_apart within rfl, if_pos letter]

theorem scans_word {w : List Char} {v : Json} (word : word? w = some v)
    (lower : w.all isWordChar = true) {rest : List Char} (stops : Stops rest) :
    Scans (w ++ rest) [.scalar v] rest := by
  have letters := List.all_eq_true.mp lower
  have done : Token.finishWord w.reverse = some (.scalar v) := by
    rw [Token.finishWord, List.reverse_reverse, word]
    rfl
  refine scans_collected .word ?_ (fun collected c mem => if_pos (letters c mem)) ?_
    fun c first => ?_
  · cases w with
    | nil => cases word
    | cons c cs => exact ⟨c, cs, rfl, begin_word (letters c List.mem_cons_self)⟩
  · rw [Token.finish, done]
    rfl
  · rw [Token.step, (stops c first).2, if_neg Bool.false_ne_true, done]

theorem word?_bool (b : Bool) : word? (chars (.bool b)) = some (.bool b) := by
  cases b <;> rfl

theorem isNumberChar_of_isDigit {c : Char} (digit : Text.isDigit c = true) :
    isNumberChar c = true := by
  simp [isNumberChar, digit]

/-- A digit or a minus begins a number. -/
theorem begin_number {c : Char} (first : Text.isDigit c = true ∨ c = '-') :
    Token.begin c = some ([], .number [c]) := by
  rcases first with digit | rfl
  · have within : 48 ≤ c.toNat ∧ c.toNat ≤ 57 := by
      unfold Text.isDigit Text.digit? at digit
      split at digit
      · next within => simpa using within
      · cases digit
    have word : isWordChar c = false := by
      simp only [isWordChar, Bool.and_eq_false_iff, decide_eq_false_iff_not]
      omega
    rw [begin_of_apart within rfl, word, if_neg Bool.false_ne_true,
      if_pos (isNumberChar_of_isDigit digit)]
  · rfl

theorem unsigned?_natural (negative : Bool) {n : Nat} (signed : negative = true → n ≠ 0) :
    unsigned? negative (Text.natural n) = some (.int (if negative then -(n : Int) else n)) := by
  have digits : ∀ c ∈ Text.natural n, Text.isDigit c = true := fun c mem =>
    Text.isDigit_of_mem_natural mem
  have nothing_after : ∀ c ∈ ([] : List Char).head?, Text.isDigit c = false := nofun
  obtain ⟨taken, dropped⟩ := Decimal.takeWhile_digits digits nothing_after
  rw [List.append_nil] at taken dropped
  have short : ¬ ((Text.natural n).head? = some '0' && decide (1 < (Text.natural n).length)) := by
    intro both
    rw [Bool.and_eq_true, decide_eq_true_eq, decide_eq_true_eq] at both
    have zero := Text.eq_zero_of_head?_natural both.1
    subst zero
    exact absurd both.2 (by decide)
  have plain : (negative && n == 0) = false := by
    cases negative with
    | false => rfl
    | true => simpa using signed rfl
  unfold unsigned?
  simp only [taken, dropped, Text.digits?_natural, short, plain]
  rfl

theorem number?_integer (n : Int) : number? (Text.integer n) = some (.int n) := by
  cases n with
  | ofNat n =>
    have spelled := unsigned?_natural false (n := n) nofun
    unfold number?
    split
    · next rest negative =>
      have minus : '-' ∈ Text.natural n := by
        rw [show Text.natural n = '-' :: rest from negative]
        exact List.mem_cons_self
      exact absurd (Text.isDigit_of_mem_natural minus) (by decide)
    · exact spelled
  | negSucc n => exact unsigned?_natural true fun _ => Nat.succ_ne_zero n

theorem scans_integer (n : Int) {rest : List Char} (stops : Stops rest) :
    Scans (Text.integer n ++ rest) [.scalar (.int n)] rest := by
  have done : Token.finishNumber (Text.integer n).reverse = some (.scalar (.int n)) := by
    rw [Token.finishNumber, List.reverse_reverse, number?_integer]
    rfl
  have chars : ∀ c ∈ Text.integer n, Text.isDigit c = true ∨ c = '-' := by
    intro c mem
    cases n with
    | ofNat n => exact .inl (Text.isDigit_of_mem_natural mem)
    | negSucc n =>
      rcases List.mem_cons.mp mem with rfl | digit
      · exact .inr rfl
      · exact .inl (Text.isDigit_of_mem_natural digit)
  have inside : ∀ c ∈ Text.integer n, isNumberChar c = true := by
    intro c mem
    rcases chars c mem with digit | rfl
    · exact isNumberChar_of_isDigit digit
    · decide
  refine scans_collected .number ?_ (fun collected c mem => if_pos (inside c mem)) ?_
    fun c first => ?_
  · cases spelled : Text.integer n with
    | nil =>
      have number := number?_integer n
      rw [spelled] at number
      cases number
    | cons c cs => exact ⟨c, cs, rfl, begin_number (chars c (spelled ▸ List.mem_cons_self))⟩
  · rw [Token.finish, done]
    rfl
  · rw [Token.step, (stops c first).1, if_neg Bool.false_ne_true, done]

/-! ## Strings -/

/-- Between quotes, `cs` is read as the piece. -/
def Spells (cs : List Char) (p : Piece) : Prop :=
  ∀ collected rest, Token.scanFrom (.string collected) (cs ++ rest) =
    Token.scanFrom (.string (p :: collected)) rest

theorem spells_plain {c : Char} (mark : c ≠ '"') (backslash : c ≠ '\\') (printed : ¬ c.toNat < 32) :
    Spells [c] (.char c) := by
  intro collected rest
  refine scanFrom_quiet ?_
  simp only [Token.step, mark, backslash, printed, if_false]

theorem step_backslash (collected : List Piece) :
    Token.step (.string collected) '\\' = some ([], .escape collected) := rfl

theorem spells_letter {c letter : Char} (short : unescape? letter = some c) (long : letter ≠ 'u') :
    Spells ['\\', letter] (.char c) := by
  intro collected rest
  have letter_step : Token.step (.escape collected) letter =
      some ([], .string (.char c :: collected)) := by
    simp only [Token.step, long, if_false, short, Option.map_some]
  rw [List.cons_append, scanFrom_quiet (step_backslash collected)]
  exact scanFrom_quiet letter_step

theorem hexValue?_hexDigit {d : Nat} (digit : d < 16) : hexValue? (hexDigit d) = some d := by
  revert d
  decide

theorem spells_code {n : Nat} (small : n < 256) :
    Spells ['\\', 'u', '0', '0', hexDigit (n / 16), hexDigit (n % 16)] (.unit n) := by
  intro collected rest
  have high : Token.step (.code collected 0 2) (hexDigit (n / 16)) =
      some ([], .code collected (n / 16) 1) := by
    simp only [Token.step, hexValue?_hexDigit (d := n / 16) (by omega), Option.map_some]
    simp
  have low : Token.step (.code collected (n / 16) 1) (hexDigit (n % 16)) =
      some ([], .string (.unit n :: collected)) := by
    have value : 16 * (n / 16) + n % 16 = n := Nat.div_add_mod n 16
    simp only [Token.step, hexValue?_hexDigit (d := n % 16) (by omega), Option.map_some, value]
    simp
  have letter : Token.step (.escape collected) 'u' = some ([], .code collected 0 4) := rfl
  have first : Token.step (.code collected 0 4) '0' = some ([], .code collected 0 3) := rfl
  have second : Token.step (.code collected 0 3) '0' = some ([], .code collected 0 2) := rfl
  rw [List.cons_append, scanFrom_quiet (step_backslash collected), List.cons_append,
    scanFrom_quiet letter, List.cons_append, scanFrom_quiet first, List.cons_append,
    scanFrom_quiet second, List.cons_append, scanFrom_quiet high]
  exact scanFrom_quiet low

/-- A code unit that is no half of a pair stands for a character. -/
theorem joinPieces_unit {n : Nat} (low : n < 0xD800) (more : List Piece) :
    joinPieces (.unit n :: more) = (joinPieces more).map (Char.ofNat n :: ·) := by
  have notHigh : isHigh n = false := by
    simp only [isHigh, Bool.and_eq_false_iff, decide_eq_false_iff_not]
    omega
  have notLow : isLow n = false := by
    simp only [isLow, Bool.and_eq_false_iff, decide_eq_false_iff_not]
    omega
  cases more with
  | nil => simp [joinPieces, notHigh, notLow]
  | cons p more => cases p <;> simp [joinPieces, notHigh, notLow]

theorem exists_piece (c : Char) : ∃ p, Spells (escape c) p ∧
    ∀ more, joinPieces (p :: more) = (joinPieces more).map (c :: ·) := by
  have short {letter : Char} (spelled : unescape? letter = some c) (long : letter ≠ 'u') :
      ∃ p, Spells ['\\', letter] p ∧
        ∀ more, joinPieces (p :: more) = (joinPieces more).map (c :: ·) :=
    ⟨.char c, spells_letter spelled long, fun _ => rfl⟩
  unfold escape
  split_ifs with mark backslash back form line carriage tab control
  · exact short (by rw [mark]; rfl) (by decide)
  · exact short (by rw [backslash]; rfl) (by decide)
  · exact short (by rw [back]; rfl) (by decide)
  · exact short (by rw [form]; rfl) (by decide)
  · exact short (by rw [line]; rfl) (by decide)
  · exact short (by rw [carriage]; rfl) (by decide)
  · exact short (by rw [tab]; rfl) (by decide)
  · refine ⟨.unit c.toNat, spells_code (by omega), fun more => ?_⟩
    rw [joinPieces_unit (by omega), Char.ofNat_toNat]
  · exact ⟨.char c, spells_plain mark backslash control, fun _ => rfl⟩

theorem exists_pieces (s : List Char) : ∃ pieces, joinPieces pieces = some s ∧
    ∀ collected rest, Token.scanFrom (.string collected) (s.flatMap escape ++ rest) =
      Token.scanFrom (.string (pieces.reverse ++ collected)) rest := by
  induction s with
  | nil => exact ⟨[], rfl, fun _ _ => rfl⟩
  | cons c s ih =>
    obtain ⟨p, spells, joins⟩ := exists_piece c
    obtain ⟨pieces, joined, scanned⟩ := ih
    refine ⟨p :: pieces, ?_, fun collected rest => ?_⟩
    · rw [joins, joined, Option.map_some]
    · rw [List.flatMap_cons, List.append_assoc, spells, scanned, List.reverse_cons,
        List.append_assoc]
      rfl

theorem scans_quote (s : String) (rest : List Char) :
    Scans (quote (some s) ++ rest) [.string (some s)] rest := by
  obtain ⟨pieces, joined, scanned⟩ := exists_pieces s.toList
  have opened : Token.step .nothing '"' = some ([], .string []) := rfl
  have closed : Token.step (.string pieces.reverse) '"' =
      some ([.string (some s)], .nothing) := by
    simp only [Token.step, Token.finishString, List.reverse_reverse, joined, Option.map_some,
      String.ofList_toList, if_true]
  have text : quote (some s) ++ rest = '"' :: (s.toList.flatMap escape ++ '"' :: rest) := by
    show '"' :: s.toList.flatMap escape ++ ['"'] ++ rest = _
    rw [List.cons_append, List.cons_append, List.append_assoc]
    rfl
  have last : Token.scanFrom (.string pieces.reverse) ('"' :: rest) =
      (Token.scanFrom .nothing rest).map ([.string (some s)] ++ ·) := by
    rw [Token.scanFrom, closed]
  rw [Scans, text, scanFrom_quiet opened, scanned, List.append_nil, last]

end Json
end CopperTidy
