import CopperTidy.Proofs.Json.Scanned

/-! # Reading JSON that was written

A compact text is read back to the value it was written from, if all strings of the value are texts
and all its numbers are integers.
-/

namespace CopperTidy.Json
set_option autoImplicit false

mutual

/-- Are all strings texts, and all numbers integers? -/
def isPlain : Json → Bool
  | .null | .bool _ | .int _ => true
  | .decimal _ => false
  | .str value => value.isSome
  | .arr items => arePlain items
  | .obj members => haveTexts members

def arePlain : List Json → Bool
  | [] => true
  | v :: rest => isPlain v && arePlain rest

def haveTexts : List (Option String × Json) → Bool
  | [] => true
  | (key, v) :: rest => key.isSome && isPlain v && haveTexts rest

end

mutual

/-- The tokens of a written value. -/
def tokens : Json → List Token
  | .arr items => .openList :: itemTokens items
  | .obj members => .openObject :: memberTokens members
  | .str value => [.string value]
  | .null => [.scalar .null]
  | .bool value => [.scalar (.bool value)]
  | .int value => [.scalar (.int value)]
  | .decimal spelling => [.scalar (.decimal spelling)]

/-- The tokens of the items and the end of the list. -/
def itemTokens : List Json → List Token
  | [] => [.closeList]
  | [v] => tokens v ++ [.closeList]
  | v :: rest => tokens v ++ .comma :: itemTokens rest

/-- The tokens of the members and the end of the object. -/
def memberTokens : List (Option String × Json) → List Token
  | [] => [.closeObject]
  | [(key, v)] => .string key :: .colon :: tokens v ++ [.closeObject]
  | (key, v) :: rest => .string key :: .colon :: tokens v ++ .comma :: memberTokens rest

end

/-! ## From text to tokens -/

theorem scans_member (key : String) {v : Json} {rest : List Char}
    (content : Scans (chars v ++ rest) (tokens v) rest) :
    Scans (quote (some key) ++ ':' :: (chars v ++ rest)) (.string (some key) :: .colon :: tokens v)
      rest := by
  have name := scans_quote key (':' :: (chars v ++ rest))
  have colon := scans_colon (chars v ++ rest)
  exact name.trans (colon.trans content)

mutual

theorem scans_chars : (v : Json) → isPlain v = true → {rest : List Char} → Stops rest →
    Scans (chars v ++ rest) (tokens v) rest
  | .null, _, _, stops => scans_word rfl rfl stops
  | .bool b, _, _, stops => scans_word (word?_bool b) (by cases b <;> rfl) stops
  | .int n, _, _, stops => scans_integer n stops
  | .str (some s), _, rest, _ => scans_quote s rest
  | .arr items, plain, rest, _ => by
    have inside := scans_itemChars items plain rest
    have all := (scans_openList (itemChars items ++ ']' :: rest)).trans inside
    simpa [chars, tokens] using all
  | .obj members, plain, rest, _ => by
    have inside := scans_memberChars members plain rest
    have all := (scans_openObject (memberChars members ++ '}' :: rest)).trans inside
    simpa [chars, tokens] using all

theorem scans_itemChars : (items : List Json) → arePlain items = true → (rest : List Char) →
    Scans (itemChars items ++ ']' :: rest) (itemTokens items) rest
  | [], _, rest => scans_closeList rest
  | [v], plain, rest => by
    have here : isPlain v = true := (Bool.and_eq_true_iff.mp plain).1
    have item := scans_chars v here (stops_closeList rest)
    exact item.trans (scans_closeList rest)
  | v :: w :: more, plain, rest => by
    obtain ⟨here, later⟩ := Bool.and_eq_true_iff.mp plain
    have item := scans_chars v here (stops_comma (itemChars (w :: more) ++ ']' :: rest))
    have others := scans_itemChars (w :: more) later rest
    have all := item.trans ((scans_comma _).trans others)
    simpa [itemChars, itemTokens] using all

theorem scans_memberChars : (members : List (Option String × Json)) → haveTexts members = true →
    (rest : List Char) → Scans (memberChars members ++ '}' :: rest) (memberTokens members) rest
  | [], _, rest => scans_closeObject rest
  | [(some key, v)], plain, rest => by
    have here : isPlain v = true := (Bool.and_eq_true_iff.mp plain).1
    have member := scans_member key (scans_chars v here (stops_closeObject rest))
    have all := member.trans (scans_closeObject rest)
    simpa [memberChars, memberTokens] using all
  | (some key, v) :: m :: more, plain, rest => by
    obtain ⟨here, later⟩ := Bool.and_eq_true_iff.mp plain
    have content := scans_chars v here (stops_comma (memberChars (m :: more) ++ '}' :: rest))
    have member := scans_member key content
    have others := scans_memberChars (m :: more) later rest
    have all := member.trans ((scans_comma _).trans others)
    simpa [memberChars, memberTokens] using all

end

/-! ## From tokens to the value -/

theorem foldlM_append {s s' : State} {first : List Token} (more : List Token)
    (h : first.foldlM State.step s = some s') :
    (first ++ more).foldlM State.step s = more.foldlM State.step s' := by
  rw [List.foldlM_append, h]
  rfl

/-- The first item of a list comes where the list might also have ended. -/
theorem foldlM_firstItem (v : Json) (more : List Json) (frames : List Frame) :
    (itemTokens (v :: more)).foldlM State.step (.firstItem frames) =
      (itemTokens (v :: more)).foldlM State.step (.value (.list [] :: frames)) := by
  have same (first : Token) (rest : List Token)
      (opens : State.step (.firstItem frames) first =
        State.step (.value (.list [] :: frames)) first) :
      (first :: rest).foldlM State.step (.firstItem frames) =
        (first :: rest).foldlM State.step (.value (.list [] :: frames)) := by
    rw [List.foldlM_cons, List.foldlM_cons, opens]
  obtain ⟨first, rest, spelled, opens⟩ : ∃ first rest, tokens v = first :: rest ∧
      State.step (.firstItem frames) first = State.step (.value (.list [] :: frames)) first := by
    cases v <;> exact ⟨_, _, rfl, rfl⟩
  cases more with
  | nil =>
    rw [itemTokens, spelled]
    exact same first _ opens
  | cons w more =>
    rw [itemTokens, spelled]
    · exact same first _ opens
    · exact nofun

theorem foldlM_firstKey (m : Option String × Json) (more : List (Option String × Json))
    (frames : List Frame) :
    (memberTokens (m :: more)).foldlM State.step (.firstKey frames) =
      (memberTokens (m :: more)).foldlM State.step (.key [] frames) := by
  cases more <;> rfl

mutual

theorem foldlM_tokens : (v : Json) → (frames : List Frame) →
    (tokens v).foldlM State.step (.value frames) = some (.complete v frames)
  | .null, _ | .bool _, _ | .int _, _ | .decimal _, _ | .str _, _ => rfl
  | .arr [], _ | .obj [], _ => rfl
  | .arr (v :: more), frames =>
    (foldlM_firstItem v more frames).trans (foldlM_itemTokens (v :: more) nofun [] frames)
  | .obj (m :: more), frames =>
    (foldlM_firstKey m more frames).trans (foldlM_memberTokens (m :: more) nofun [] frames)

theorem foldlM_itemTokens : (items : List Json) → items ≠ [] → (done : List Json) →
    (frames : List Frame) → (itemTokens items).foldlM State.step (.value (.list done :: frames)) =
      some (.complete (.arr (done.reverse ++ items)) frames)
  | [], nonempty, _, _ => absurd rfl nonempty
  | [v], _, done, frames => by
    rw [itemTokens, foldlM_append _ (foldlM_tokens v (.list done :: frames)), ← List.reverse_cons]
    rfl
  | v :: w :: more, _, done, frames => by
    have others := foldlM_itemTokens (w :: more) nofun (v :: done) frames
    show (tokens v ++ .comma :: itemTokens (w :: more)).foldlM State.step _ = _
    rw [foldlM_append _ (foldlM_tokens v (.list done :: frames))]
    rw [List.reverse_cons, List.append_assoc] at others
    exact others

theorem foldlM_memberTokens : (members : List (Option String × Json)) → members ≠ [] →
    (done : List (Option String × Json)) → (frames : List Frame) →
    (memberTokens members).foldlM State.step (.key done frames) =
      some (.complete (.obj (done.reverse ++ members)) frames)
  | [], nonempty, _, _ => absurd rfl nonempty
  | [(key, v)], _, done, frames => by
    show (tokens v ++ [Token.closeObject]).foldlM State.step
      (.value (.object done key :: frames)) = _
    rw [foldlM_append _ (foldlM_tokens v (.object done key :: frames)), ← List.reverse_cons]
    rfl
  | (key, v) :: m :: more, _, done, frames => by
    have others := foldlM_memberTokens (m :: more) nofun ((key, v) :: done) frames
    show (tokens v ++ .comma :: memberTokens (m :: more)).foldlM State.step
      (.value (.object done key :: frames)) = _
    rw [foldlM_append _ (foldlM_tokens v (.object done key :: frames))]
    rw [List.reverse_cons, List.append_assoc] at others
    exact others

end

/-! ## Reading back -/

theorem read?_write {v : Json} (plain : isPlain v = true) : read? v.write = some v := by
  have stops : Stops [] := nofun
  have scanned : Token.scan (chars v) = some (tokens v) := by
    have all := scans_chars v plain stops
    rw [List.append_nil, Scans] at all
    rw [Token.scan, all, Token.scanFrom, Token.finish, Option.map_some, List.append_nil]
  have built := foldlM_tokens v []
  rw [read?, write, String.toList_ofList, scanned, Option.bind_some, ofTokens?, built]
  rfl

end CopperTidy.Json
