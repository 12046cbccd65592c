import CopperTidy.Proofs.SExpr.RoundTrip

/-! # What printing keeps

Every tree can be printed and read again, and comes back in normal form: `read_printed`. A tree
that was read holds no atom that a blank or a delimiter would break up, but it may hold one with a
backslash, which the reader takes bare and the printer writes in quotes. Apart from these atoms a
text is written back as it was read: `read_printed_eq_iff`.
-/

namespace CopperTidy.SExpr
set_option autoImplicit false

/-! ## Any tree -/

/-- The lexemes of a text, without their places. -/
def lexemesIn (text : String) : List Lexeme := (Token.scan text.toList).map (·.lexeme)

theorem lexemesIn_of_scans {cs : List Char} {ls : List Lexeme} (h : Scans cs ls []) :
    lexemesIn (String.ofList cs) = ls := by
  obtain ⟨tokens, q, eq, spelled⟩ := h {}
  rw [lexemesIn, String.toList_ofList, Token.scan, eq, Token.scanFrom, Token.finish,
    List.append_nil, spelled]

theorem normal_atom (s : String) :
    normal (.atom s) = if NeedsQuotes s then .quoted s else .atom s := by
  rw [normal]
  by_cases bare : isBare s.toList = true
  · rw [if_pos bare, if_neg ((isBare_iff s).mp bare)]
  · rw [if_neg bare, if_pos (Classical.not_not.mp (mt (isBare_iff s).mpr bare))]

/-- A tree is read back in normal form from either text. The texts hold the same lexemes, so they
differ in layout only, and printing the normal form and reading it again gives it back. -/
theorem read_printed (e : SExpr) :
    SExpr.read e.toText = .ok (normal e) ∧ SExpr.read e.toPrettyText = .ok (normal e) ∧
      lexemesIn e.toText = lexemesIn e.toPrettyText ∧
      SExpr.read (normal e).toText = .ok (normal e) ∧
      SExpr.read (normal e).toPrettyText = .ok (normal e) ∧
      normal e = match e with
        | .atom s => if NeedsQuotes s then .quoted s else .atom s
        | .quoted s => .quoted s
        | .list items => .list (items.map normal) := by
  refine ⟨read_toText e, read_toPrettyText e, ?_, ?_, ?_, ?_⟩
  · exact (lexemesIn_of_scans (scans_toText e)).trans
      (lexemesIn_of_scans (scans_toPrettyText e)).symm
  · rw [read_toText, normal_normal]
  · rw [read_toPrettyText, normal_normal]
  · cases e with
    | atom s => exact normal_atom s
    | quoted s => rfl
    | list items => rw [normal, normalItems_eq_map]

/-! ## A tree that was read -/

/-- A text that the reader takes for a bare symbol. -/
def IsSymbol (s : String) : Prop := s ≠ "" ∧ ∀ c ∈ s.toList, isSymbolChar c = true

/-- Such a text is written bare again unless it holds a backslash. -/
theorem IsSymbol.isBare_iff {s : String} (h : IsSymbol s) :
    isBare s.toList = true ↔ '\\' ∉ s.toList := by
  have nonempty : s.toList.isEmpty = false := by
    rw [List.isEmpty_eq_false_iff, ne_eq, String.toList_eq_nil_iff]
    exact h.1
  rw [isBare, nonempty, Bool.not_false, Bool.true_and, List.all_eq_true]
  constructor
  · intro all mem
    exact absurd (all _ mem) (by decide)
  · intro absent c mem
    rw [h.2 c mem, Bool.true_and, bne_iff_ne]
    rintro rfl
    exact absent mem

/-- What a pending symbol has collected is a symbol already. -/
def Pending.Proper : Pending → Prop
  | .symbol collected _ => collected ≠ [] ∧ ∀ c ∈ collected, isSymbolChar c = true
  | .nothing | .quoted _ _ | .escape _ _ => True

namespace Token

def Proper (token : Token) : Prop := ∀ s, token.lexeme = .symbol s → IsSymbol s

theorem proper_ofSymbol {collected : List Char} {start : Place}
    (h : (Pending.symbol collected start).Proper) : (ofSymbol collected start).Proper := by
  intro s spelled
  obtain rfl : String.ofList collected.reverse = s := Lexeme.symbol.inj spelled
  refine ⟨fun empty => h.1 ?_, fun c mem => h.2 c ?_⟩
  · rwa [← String.toList_eq_nil_iff, String.toList_ofList, List.reverse_eq_nil_iff] at empty
  · rwa [String.toList_ofList, List.mem_reverse] at mem

theorem proper_begin (p : Place) (c : Char) :
    (∀ token ∈ (begin p c).1, token.Proper) ∧ (begin p c).2.Proper := by
  unfold begin
  split
  · exact ⟨by simp [Proper], trivial⟩
  split
  · exact ⟨by simp [Proper], trivial⟩
  split
  · exact ⟨by simp, trivial⟩
  split
  · exact ⟨by simp, trivial⟩
  · next opening closing mark blank =>
    refine ⟨by simp, List.cons_ne_nil _ _, fun d mem => ?_⟩
    rw [List.mem_singleton.mp mem]
    simp [isSymbolChar, isDelimiter, opening, closing, mark, blank]

theorem proper_step {pending : Pending} (h : pending.Proper) (p : Place) (c : Char) :
    (∀ token ∈ (step pending p c).1, token.Proper) ∧ (step pending p c).2.Proper := by
  cases pending with
  | nothing => exact proper_begin p c
  | symbol collected start =>
    by_cases symbol : isSymbolChar c = true
    · simp only [step, symbol, if_true]
      refine ⟨by simp, List.cons_ne_nil _ _, fun d mem => ?_⟩
      rcases List.mem_cons.mp mem with rfl | mem
      · exact symbol
      · exact h.2 d mem
    · obtain ⟨tokens, next⟩ := proper_begin p c
      simp only [step, symbol, Bool.false_eq_true, if_false]
      exact ⟨List.forall_mem_cons.mpr ⟨proper_ofSymbol h, tokens⟩, next⟩
  | quoted collected start =>
    by_cases mark : c = '"'
    · rw [step, if_pos mark]
      exact ⟨by simp [Proper, ofQuoted], trivial⟩
    by_cases backslash : c = '\\'
    · rw [step, if_neg mark, if_pos backslash]
      exact ⟨by simp, trivial⟩
    · rw [step, if_neg mark, if_neg backslash]
      exact ⟨by simp, trivial⟩
  | escape collected start => exact ⟨by simp [step], trivial⟩

theorem proper_finish {pending : Pending} (h : pending.Proper) :
    ∀ token ∈ finish pending, token.Proper := by
  cases pending with
  | nothing => simp [finish]
  | symbol collected start => simpa [finish] using proper_ofSymbol h
  | quoted collected start => simp [finish, Proper]
  | escape collected start => simp [finish, Proper]

theorem proper_scanFrom {pending : Pending} (h : pending.Proper) (p : Place) (cs : List Char) :
    ∀ token ∈ scanFrom pending p cs, token.Proper := by
  induction cs generalizing pending p with
  | nil => exact proper_finish h
  | cons c cs ih =>
    obtain ⟨tokens, next⟩ := proper_step h p c
    exact List.forall_mem_append.mpr ⟨tokens, ih next (p.after c)⟩

end Token

/-- Every atom of the tree is a symbol. -/
def Proper (e : SExpr) : Prop := ∀ s ∈ e.atoms, IsSymbol s

theorem proper_list {items : List SExpr} (h : ∀ e ∈ items, e.Proper) : (list items).Proper := by
  intro s mem
  obtain ⟨e, there, inside⟩ := mem_atomsOf.mp mem
  exact h e there s inside

def Open.Proper (lists : Open) : Prop := ∀ done ∈ lists, ∀ e ∈ done, e.Proper

theorem proper_deliver {e : SExpr} {lists : Open} (item : e.Proper) (h : Open.Proper lists) :
    Sum.elim Proper Open.Proper (deliver e lists) := by
  cases lists with
  | nil => exact item
  | cons done outer =>
    obtain ⟨inner, rest⟩ := List.forall_mem_cons.mp h
    exact List.forall_mem_cons.mpr ⟨List.forall_mem_cons.mpr ⟨item, inner⟩, rest⟩

theorem proper_take {token : Token} {lists : Open} {next : SExpr ⊕ Open} (spelled : token.Proper)
    (h : Open.Proper lists) (taken : take token lists = .ok next) :
    Sum.elim Proper Open.Proper next := by
  unfold take at taken
  split at taken
  · cases taken
    exact List.forall_mem_cons.mpr ⟨by simp, h⟩
  · cases lists with
    | nil => cases taken
    | cons done outer =>
      obtain ⟨inner, rest⟩ := List.forall_mem_cons.mp h
      cases taken
      exact proper_deliver (proper_list fun e mem => inner e (List.mem_reverse.mp mem)) rest
  · next s symbol =>
    cases taken
    refine proper_deliver (fun t mem => ?_) h
    rw [List.mem_singleton.mp mem]
    exact spelled s symbol
  · cases taken
    exact proper_deliver (fun t mem => by cases mem) h
  · cases taken

theorem proper_readFirst {lists : Open} {tokens more : List Token} {root : SExpr}
    (spelled : ∀ token ∈ tokens, token.Proper) (h : Open.Proper lists)
    (done : readFirst lists tokens = .ok (root, more)) : root.Proper := by
  induction tokens generalizing lists with
  | nil => cases done
  | cons token tokens ih =>
    obtain ⟨first, others⟩ := List.forall_mem_cons.mp spelled
    cases taken : take token lists with
    | error e =>
      rw [readFirst, taken] at done
      cases done
    | ok next =>
      have proper := proper_take first h taken
      rw [readFirst_cons tokens taken] at done
      cases next with
      | inl root' =>
        cases done
        exact proper
      | inr lists' => exact ih others proper done

/-- The atoms of a tree that was read are symbols. -/
theorem proper_of_read {text : String} {e : SExpr} (h : SExpr.read text = .ok e) : e.Proper := by
  have start : Pending.nothing.Proper := trivial
  have tokens := Token.proper_scanFrom start {} text.toList
  rw [SExpr.read, ofTokens] at h
  split at h
  · cases h
  · next root first =>
    cases h
    exact proper_readFirst tokens (fun _ mem => by cases mem) first
  · cases h

theorem normal_eq_self_iff_of_read {text : String} {e : SExpr} (h : SExpr.read text = .ok e) :
    normal e = e ↔ ∀ s ∈ e.atoms, '\\' ∉ s.toList := by
  rw [normal_eq_self_iff]
  exact forall₂_congr fun s mem => (proper_of_read h s mem).isBare_iff

/-- What was read is written back as it was read, on one line and with indentation, just if no bare
symbol holds a backslash. -/
theorem read_printed_eq_iff {text : String} {e : SExpr} (h : SExpr.read text = .ok e) :
    (SExpr.read e.toText = .ok e ↔ ∀ s ∈ e.atoms, '\\' ∉ s.toList) ∧
      (SExpr.read e.toPrettyText = .ok e ↔ ∀ s ∈ e.atoms, '\\' ∉ s.toList) := by
  rw [read_toText, read_toPrettyText, Except.ok.injEq, normal_eq_self_iff_of_read h]
  exact ⟨Iff.rfl, Iff.rfl⟩

theorem read_printed_eq_iff_pinNet :
    SExpr.read "(pad 1 (net 3 \"A B\"))" =
        .ok (.list [.atom "pad", .atom "1", .list [.atom "net", .atom "3", .quoted "A B"]]) ∧
      SExpr.read (SExpr.toPrettyText
          (.list [.atom "pad", .atom "1", .list [.atom "net", .atom "3", .quoted "A B"]])) =
        .ok (.list [.atom "pad", .atom "1", .list [.atom "net", .atom "3", .quoted "A B"]]) :=
  have read : SExpr.read "(pad 1 (net 3 \"A B\"))" =
      .ok (.list [.atom "pad", .atom "1", .list [.atom "net", .atom "3", .quoted "A B"]]) := by rfl
  ⟨read, (read_printed_eq_iff read).2.mpr (by decide)⟩

/-- A bare symbol with a backslash comes back as a quoted string. -/
theorem backslash_comes_back_quoted :
    ¬ ∀ (text : String) (e : SExpr), SExpr.read text = .ok e →
      SExpr.read e.toText = .ok e ∧ SExpr.read e.toPrettyText = .ok e := by
  intro kept
  have again := (kept "a\\b" (.atom "a\\b") (by rfl)).1
  have quoted : SExpr.read (SExpr.atom "a\\b").toText = .ok (.quoted "a\\b") := by rfl
  rw [quoted] at again
  cases again

end CopperTidy.SExpr
